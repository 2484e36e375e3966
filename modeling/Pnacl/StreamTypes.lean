import Mathlib.Data.List.Pairwise
import Pnacl.BodyTypes
import Pnacl.IntegerSemantics

/-!
# The types of values in an instruction stream

The passes give BINOP and VSELECT the types of their operands and leave all other types alone (`passes_types`); lowering checks the
operands. So an instruction whose result is an `i1` has an opcode that makes an `i1`, or copies one (`StructTyped`). Phis are not
checked.
-/

namespace Pnacl

open Lib

/-! ## What the pass over result types keeps -/

section Pass

variable {host : PNHost} {module : PNModule} {f : PNFunction} {I : PNFunction → Prop}

/-- What one instruction keeps. -/
def KeptBy (host : PNHost) (module : PNModule) (I : PNFunction → Prop) (inst : PNInstruction) : Prop :=
  ∀ {g g' resolved}, I g → pnInstructionCalculateResultValueType host module g inst = .ok (resolved, g') → I g'

theorem resolveTypes_keeps : ∀ {insts invalid : List PNInstruction} {g g' : PNFunction},
    (∀ inst ∈ insts, KeptBy host module I inst) → I g → resolveTypes host module g insts = .ok (invalid, g') →
    I g' ∧ ∀ inst ∈ invalid, inst ∈ insts
  | [], invalid, g, g', _, hg, h => by
    cases h
    exact ⟨hg, fun _ => id⟩
  | inst :: rest, invalid, g, g', hk, hg, h => by
    obtain ⟨hinst, hrest⟩ := List.forall_mem_cons.mp hk
    obtain ⟨⟨resolved, g₁⟩, h₁, h⟩ := bind_eq_ok.mp h
    obtain ⟨⟨left, g₂⟩, h₂, h⟩ := bind_eq_ok.mp h
    cases h
    obtain ⟨hg₂, hsub⟩ := resolveTypes_keeps hrest (hinst hg h₁) h₂
    refine ⟨hg₂, ?_⟩
    split
    · exact fun i hi => List.mem_cons_of_mem _ (hsub i hi)
    · exact List.cons_subset_cons _ hsub

theorem retryInvalid_keeps : ∀ {left n : Nat} {invalid invalid' : List PNInstruction} {g g' : PNFunction},
    (∀ inst ∈ invalid, KeptBy host module I inst) → I g → retryInvalid host module left n invalid g = .ok (invalid', g') →
    I g' ∧ ∀ inst ∈ invalid', inst ∈ invalid
  | 0, n, invalid, invalid', g, g', _, hg, h => by
    cases h
    exact ⟨hg, fun _ => id⟩
  | left + 1, n, invalid, invalid', g, g', hk, hg, h => by
    rw [retryInvalid] at h
    split at h
    · cases h
      exact ⟨hg, fun _ => id⟩
    · rename_i inst hinst
      obtain ⟨⟨resolved, g₁⟩, h₁, h⟩ := bind_eq_ok.mp h
      have hg₁ := hk inst (List.mem_of_getElem? hinst) hg h₁
      dsimp only at h
      split at h
      · obtain ⟨hg', hsub⟩ := retryInvalid_keeps (fun i hi => hk i (mem_of_mem_removeAt hi)) hg₁ h
        exact ⟨hg', fun i hi => mem_of_mem_removeAt (hsub i hi)⟩
      · exact retryInvalid_keeps hk hg₁ h

theorem retryRounds_keeps : ∀ {fuel : Nat} {invalid : List PNInstruction} {g g' : PNFunction},
    (∀ inst ∈ invalid, KeptBy host module I inst) → I g → retryRounds host module fuel invalid g = .ok g' → I g'
  | 0, _, _, _, _, _, h => by cases h
  | fuel + 1, invalid, g, g', hk, hg, h => by
    obtain ⟨⟨left, g₁⟩, h₁, h⟩ := bind_eq_ok.mp h
    obtain ⟨hg₁, hsub⟩ := retryInvalid_keeps hk hg h₁
    dsimp only at h
    split at h
    · exact retryRounds_keeps (fun i hi => hk i (hsub i hi)) hg₁ h
    · split at h
      · cases h
      · cases h
        exact hg₁

/-- What every instruction keeps, the pass keeps. -/
theorem calculateResultValueTypes_keeps {g : PNFunction} (hk : ∀ inst ∈ f.insts, KeptBy host module I inst) (hf : I f)
    (h : pnFunctionCalculateResultValueTypes host module f = .ok g) : I g := by
  obtain ⟨⟨invalid, g₁⟩, h₁, h⟩ := bind_eq_ok.mp h
  obtain ⟨hg₁, hsub⟩ := resolveTypes_keeps hk hf h₁
  dsimp only at h
  split at h
  · exact retryRounds_keeps (fun i hi => hk i (hsub i hi)) hg₁ h
  · cases h
    exact hg₁

end Pass

/-! ## The types that it derives -/

section Types

variable {host : PNHost} {module : PNModule} {f g g' : PNFunction} {inst inst' : PNInstruction} {e : Equation Nat} {r v t : Nat}

theorem PNInstruction.equation_resultId (h : inst.equation = some e) : inst.resultId = some e.result := by
  cases inst <;> cases h <;> rfl

/-- No two instructions define the same value. -/
theorem BodyOk.result_inj (h : BodyOk host module f) (hi : inst ∈ f.insts) (hi' : inst' ∈ f.insts) (hr : inst.resultId = some r)
    (hr' : inst'.resultId = some r) : inst = inst' := by
  by_contra hne
  have : Std.Symm fun a b : PNInstruction => ∀ r, a.resultId = some r → ∀ r', b.resultId = some r' → r ≠ r' :=
    ⟨fun _ _ hab r hr r' hr' => (hab r' hr' r hr).symm⟩
  exact (List.pairwise_filterMap.mp h.distinct).forall hi hi' hne r hr r hr' rfl

/-- The result of an equation is a local variable, so far without type. -/
theorem BodyOk.equation_result (h : BodyOk host module f) (he : e ∈ f.equations) :
    ∃ i v, e.result = module.values.length + i ∧ f.values[i]? = some v ∧ v.code = .localVar ∧ v.typeId = PN_INVALID_TYPE_ID := by
  obtain ⟨inst, hinst, heq⟩ := List.mem_filterMap.mp he
  obtain ⟨i, v, hi, hv, hcode, ht⟩ := h.defines inst hinst e.result (inst.equation_resultId heq)
  refine ⟨i, v, hi, hv, hcode, ?_⟩
  cases inst <;> cases heq <;> exact ht

theorem typeOf_value {i : Nat} {value : PNValue} (h : f.values[i]? = some value) :
    f.typeOf module (module.values.length + i) = if value.typeId = PN_INVALID_TYPE_ID then none else some value.typeId := by
  rw [PNFunction.typeOf, List.getElem?_append_right (Nat.le_add_right _ _), Nat.add_sub_cancel_left, h]
  rfl

theorem BodyOk.separate (h : BodyOk host module f) : SeparateResults (f.typeOf module) f.system := by
  constructor
  · intro e he
    obtain ⟨i, v, hi, hv, -, ht⟩ := h.equation_result he
    rw [hi, typeOf_value hv, if_pos ht]
  · intro e e' he he' heq
    obtain ⟨inst, hinst, hie⟩ := List.mem_filterMap.mp he
    obtain ⟨inst', hinst', hie'⟩ := List.mem_filterMap.mp he'
    obtain rfl := h.result_inj hinst hinst' (inst.equation_resultId hie) (heq ▸ inst'.equation_resultId hie')
    exact Option.some.inj (hie.symm.trans hie')

/-- The types that are known are ids that fit in 16 bits. -/
theorem BodyOk.typeOf_lt (h : BodyOk host module f) (hm : module.TypesRead) (hd : TypeDerives host module f v t) : t < 2 ^ 16 - 1 := by
  cases hd with
  | known hv =>
    obtain ⟨value, hvalue, ht⟩ := Option.bind_eq_some_iff.mp hv
    split at ht
    · cases ht
    · rename_i hne
      cases ht
      have hlt : value.typeId < 2 ^ 16 := by
        rcases List.mem_append.mp (List.mem_of_getElem? hvalue) with hmem | hmem
        · exact hm.values value hmem
        · exact h.small value hmem
      simp only [PN_INVALID_TYPE_ID] at hne
      omega
  | step _ _ _ hop =>
    have hlt := (implicitCast_eq_some.mp hop).2
    have := hm.table.length
    omega

/-- One equation: only a type that can be derived is stored. -/
theorem RetypeInv.assign (h : BodyOk host module f) (hm : module.TypesRead) (hi : RetypeInv host module f g) (he : e ∈ f.equations)
    {resolved : Bool} (hok : pnFunctionAssignResultValueType host module g e.result e.left e.right = .ok (resolved, g')) :
    RetypeInv host module f g' := by
  obtain ⟨result, hr, hok⟩ := bind_eq_ok.mp hok
  obtain ⟨value0, h0, hok⟩ := bind_eq_ok.mp hok
  obtain ⟨value1, h1, hok⟩ := bind_eq_ok.mp hok
  dsimp only at hok
  split at hok
  · cases hok
    exact hi
  · rename_i hnone
    obtain ⟨hv0, hv1⟩ := not_or.mp hnone
    obtain ⟨hlt, hok⟩ := pnCheck_bind_eq_ok.mp hok
    cases hok
    have ht0 : g.typeOf module e.left = some value0.typeId := by
      rw [PNFunction.typeOf, pnFunctionGetValue_mem h0]
      exact if_neg hv0
    have ht1 : g.typeOf module e.right = some value1.typeId := by
      rw [PNFunction.typeOf, pnFunctionGetValue_mem h1]
      exact if_neg hv1
    have hcast : toTypeId (pnTypeGetImplicitCastType host module value0.typeId value1.typeId) =
        pnTypeGetImplicitCastType host module value0.typeId value1.typeId :=
      Nat.mod_eq_of_lt (cast_lt (by decide : 2 ^ 16 - 1 < 2 ^ 16) (h.typeOf_lt hm (hi.sound.derives ht1)))
    rw [hcast] at hlt ⊢
    rw [hcast] at hlt
    obtain ⟨i, w, hres, hw, -⟩ := h.equation_result he
    have hhigh : e.result < pnFunctionNumValues module g := by
      rw [hi.numValues, hres]
      exact Nat.add_lt_add_left (List.getElem?_eq_some_iff.mp hw).1 _
    have hne : pnTypeGetImplicitCastType host module value0.typeId value1.typeId ≠ PN_INVALID_TYPE_ID := by
      have := hm.table.length
      simp only [PN_INVALID_TYPE_ID]
      omega
    have hsound := hi.sound.step h.separate he ht0 ht1 (implicitCast_eq_some.mpr ⟨rfl, hlt⟩)
    rw [← typeOf_setTypeId (by omega) hhigh hne] at hsound
    obtain ⟨hfunction, hcodes⟩ := hi.setTypeId e.result (pnTypeGetImplicitCastType host module value0.typeId value1.typeId)
    exact ⟨hfunction, hcodes, hsound⟩

theorem RetypeInv.kept (h : BodyOk host module f) (hm : module.TypesRead) (hmem : inst ∈ f.insts) :
    KeptBy host module (RetypeInv host module f) inst := by
  intro g g' resolved hi hok
  cases he : inst.equation with
  | none =>
    cases inst <;> cases he <;> cases hok <;> exact hi
  | some e =>
    have hme : e ∈ f.equations := List.mem_filterMap.mpr ⟨inst, hmem, he⟩
    cases inst <;> cases he <;> exact hi.assign h hm hme hok

/-- A value that no equation defines stays what it was. -/
theorem RetypeInv.unchanged (hi : RetypeInv host module f g) {i : Nat} {value : PNValue} (hv : f.values[i]? = some value)
    (hne : ∀ e ∈ f.equations, e.result ≠ module.values.length + i) : g.values[i]? = some value := by
  have hcode : (g.values.map PNValue.code)[i]? = (f.values.map PNValue.code)[i]? := by rw [hi.codes]
  rw [List.getElem?_map, List.getElem?_map, hv] at hcode
  obtain ⟨value', hv', hcode⟩ := Option.map_eq_some_iff.mp hcode
  have htype : g.typeOf module (module.values.length + i) = f.typeOf module (module.values.length + i) := by
    apply Option.ext
    intro t
    constructor
    · intro ht
      have hd := hi.sound.derives ht
      generalize hr : module.values.length + i = r at hd
      cases hd with
      | known h => exact h
      | step he => exact absurd hr.symm (hne _ he)
    · exact hi.sound.keeps
  rw [typeOf_value hv, typeOf_value hv'] at htype
  rw [hv', PNValue.eq_of_typeId hcode htype]

/-- The cast is one of the two types, or there is none. -/
theorem implicitCast_eq (t0 t1 : Nat) : pnTypeGetImplicitCastType host module t0 t1 = t0 ∨
    pnTypeGetImplicitCastType host module t0 t1 = t1 ∨ pnTypeGetImplicitCastType host module t0 t1 = PN_INVALID_TYPE_ID := by
  unfold pnTypeGetImplicitCastType
  split
  · exact .inl rfl
  · split
    · split
      · exact .inr (.inl rfl)
      · exact .inr (.inr rfl)
    · split
      · exact .inr (.inl rfl)
      · exact .inr (.inr rfl)
    · exact .inr (.inr rfl)

/-- What an equation says when the pass has returned. -/
theorem equation_types (h : BodyOk host module f) (hm : module.TypesRead)
    (hp : pnFunctionCalculateResultValueTypes host module f = .ok g) (he : e ∈ f.equations) :
    ∃ t0 t1 t, g.typeOf module e.left = some t0 ∧ g.typeOf module e.right = some t1 ∧ g.typeOf module e.result = some t ∧
      (t = t0 ∨ t = t1) := by
  have hi : RetypeInv host module f g := calculateResultValueTypes_keeps (fun _ hmem => .kept h hm hmem) .start hp
  have hall : ∀ e ∈ f.system, ∃ t, g.typeOf module e.result = some t := by
    intro e he
    obtain ⟨i, v, hres, -⟩ := h.equation_result he
    obtain ⟨inst, hinst, heq⟩ := List.mem_filterMap.mp he
    have hderived : inst.derivedResult = some (module.values.length + i) := by
      rw [← hres]
      cases inst <;> cases heq <;> rfl
    obtain ⟨v', hv', hlt⟩ := (resultValueTypes_spec hp).2 inst hinst i hderived
    rw [hres, typeOf_value hv', if_neg]
    · exact ⟨_, rfl⟩
    · have := hm.table.length
      simp only [PN_INVALID_TYPE_ID]
      omega
  obtain ⟨t0, t1, t, h0, h1, hop, ht⟩ := (hi.sound.solves h.separate hall).equation he
  refine ⟨t0, t1, t, h0, h1, ht, ?_⟩
  obtain ⟨rfl, hlt⟩ := implicitCast_eq_some.mp hop
  rcases implicitCast_eq t0 t1 with heq | heq | heq
  · exact .inl heq
  · exact .inr heq
  · have := hm.table.length
    rw [heq, PN_INVALID_TYPE_ID] at hlt
    omega

end Types

/-! ## Behind the passes -/

/-- The type of the value of an instruction behind the passes. -/
def PNInstruction.HasTypes (host : PNHost) (module : PNModule) (f : PNFunction) (t : Nat) : PNInstruction → Prop
  | .binop _ value0Id value1Id _ _ | .vselect _ _ value0Id value1Id =>
    ∃ t0 t1, f.typeOf module value0Id = some t0 ∧ f.typeOf module value1Id = some t1 ∧ (t = t0 ∨ t = t1)
  | inst => inst.GetsType host module t

/-- The value that the instruction defines has the type that follows from the instruction. -/
def ResultTyped (host : PNHost) (module : PNModule) (f : PNFunction) (inst : PNInstruction) : Prop :=
  ∀ r, inst.resultId = some r → ∃ v : PNValue, (module.values ++ f.values)[r]? = some v ∧ inst.HasTypes host module f v.typeId

/-- A body behind the passes. -/
structure BodyTyped (host : PNHost) (module : PNModule) (f : PNFunction) : Prop where
  args : ∀ {isVarargs returnType argTypes}, module.type host f.typeId = .function isVarargs returnType argTypes →
    ∀ {i t : Nat}, argTypes[i]? = some t → f.values[i]? = some ⟨.functionArg i, t⟩
  constants : ConstantsOk host module f
  results : ∀ inst ∈ f.insts, ResultTyped host module f inst

section Passes

variable {host : PNHost} {module module' : PNModule} {f g : PNFunction} {inst : PNInstruction} {functionId : Nat}

/-- Constants are never retyped. -/
theorem ConstantsOk.retyped (h : ConstantsOk host module f) (hc : g.constants = f.constants) (hlen : g.values.length = f.values.length)
    (hcodes : g.values.map PNValue.code = f.values.map PNValue.code)
    (hv : ∀ {i : Nat} {v : PNValue}, f.values[i]? = some v → v.isConstant = true → g.values[i]? = some v) :
    ConstantsOk host module g := by
  have hall : List.Forall₂ (fun v v' : PNValue => v'.isConstant = v.isConstant ∧ (v.isConstant = true → v' = v)) f.values g.values := by
    rw [List.forall₂_iff_get]
    refine ⟨hlen.symm, ?_⟩
    intro i hi hi'
    simp only [List.get_eq_getElem]
    constructor
    · have hcode : (g.values.map PNValue.code)[i]? = (f.values.map PNValue.code)[i]? := by rw [hcodes]
      rw [List.getElem?_map, List.getElem?_map, List.getElem?_eq_getElem hi, List.getElem?_eq_getElem hi'] at hcode
      rw [PNValue.isConstant, Option.some.inj hcode, PNValue.isConstant]
    · intro hconst
      have hget := hv (List.getElem?_eq_getElem hi) hconst
      rw [List.getElem?_eq_getElem hi'] at hget
      exact Option.some.inj hget
  have hfilter : ∀ {l l' : List PNValue},
      List.Forall₂ (fun v v' : PNValue => v'.isConstant = v.isConstant ∧ (v.isConstant = true → v' = v)) l l' →
      l'.filter PNValue.isConstant = l.filter PNValue.isConstant := by
    intro l l' hl
    induction hl with
    | nil => rfl
    | @cons v v' _ _ hvv _ ih =>
      obtain ⟨hb, heq⟩ := hvv
      by_cases hconst : v.isConstant = true
      · rw [List.filter_cons_of_pos (hb.trans hconst), List.filter_cons_of_pos hconst, ih, heq hconst]
      · rw [List.filter_cons_of_neg (hb ▸ hconst), List.filter_cons_of_neg hconst, ih]
  refine ⟨?_, hc ▸ h.ok⟩
  rw [hfilter hall, hc]
  exact h.typeIds

/-- **The types behind the passes.** -/
theorem passes_types (h : BodyOk host module f) (hm : module.TypesRead) (hp : pnFunctionPasses host module functionId f = .ok g) :
    BodyTyped host module g := by
  obtain ⟨f₁, f₂, h₁, h₂, -, hg⟩ := pnFunctionPasses_cases hp
  have hframe := pnFunctionPasses_frame hp
  have hi : RetypeInv host module f f₁ := calculateResultValueTypes_keeps (fun _ hmem => .kept h hm hmem) .start h₁
  obtain ⟨-, hf₂, -⟩ := phiAssigns_spec h₂
  have hvalues : g.values = f₁.values := by rw [hg, hf₂]; rfl
  have htypeOf : g.typeOf module = f₁.typeOf module := by
    funext v
    rw [PNFunction.typeOf, hvalues, PNFunction.typeOf]
  -- equations define local variables only
  have hkeep : ∀ {i : Nat} {v : PNValue}, f.values[i]? = some v → v.code ≠ .localVar → g.values[i]? = some v := by
    intro i v hv hcode
    rw [hvalues]
    apply hi.unchanged hv
    intro e he heq
    obtain ⟨j, w, hj, hw, hlocal, -⟩ := h.equation_result he
    obtain rfl : i = j := by omega
    rw [hv] at hw
    cases hw
    exact hcode hlocal
  constructor
  · intro isVarargs returnType argTypes ht i t hit
    rw [hframe.typeId] at ht
    exact hkeep (h.args ht hit) (by simp)
  · apply h.constants.retyped hframe.constants hframe.values (hvalues ▸ hi.codes)
    intro i v hv hconst
    apply hkeep hv
    intro hlocal
    rw [PNValue.isConstant, hlocal] at hconst
    cases hconst
  · intro inst hinst r hr
    rw [hframe.insts] at hinst
    obtain ⟨i, v, rfl, hv, -, ht⟩ := h.defines inst hinst r hr
    have hget : ∀ {v : PNValue}, g.values[i]? = some v → (module.values ++ g.values)[module.values.length + i]? = some v := by
      intro v hv
      rw [List.getElem?_append_right (Nat.le_add_right _ _), Nat.add_sub_cancel_left, hv]
    cases he : inst.equation with
    | some e =>
      have hres : e.result = module.values.length + i := Option.some.inj ((inst.equation_resultId he).symm.trans hr)
      obtain ⟨t0, t1, t, hl, hright, hres', hor⟩ := equation_types h hm h₁ (List.mem_filterMap.mpr ⟨inst, hinst, he⟩)
      rw [← htypeOf] at hl hright hres'
      obtain ⟨v', hv', hif⟩ := Option.bind_eq_some_iff.mp hres'
      rw [hres] at hv'
      refine ⟨v', hv', ?_⟩
      split at hif
      · cases hif
      · cases hif
        cases inst <;> cases he <;> exact ⟨t0, t1, hl, hright, hor⟩
    | none =>
      have hsame : g.values[i]? = some v := by
        rw [hvalues]
        apply hi.unchanged hv
        intro e he' heq
        obtain ⟨inst', hinst', hie⟩ := List.mem_filterMap.mp he'
        obtain rfl := h.result_inj hinst hinst' hr (heq ▸ inst'.equation_resultId hie)
        rw [he] at hie
        cases hie
      refine ⟨v, hget hsame, ?_⟩
      cases inst <;> first | exact ht | cases he

end Passes

/-! ## In the stream -/

/-- The value has the type `i1`. -/
def PNFunction.IsInt1 (host : PNHost) (module : PNModule) (f : PNFunction) (valueId : Nat) : Prop :=
  (basicTypeOf host module f valueId).toOption = some .int1

instance (host : PNHost) (module : PNModule) (f : PNFunction) (valueId : Nat) : Decidable (f.IsInt1 host module valueId) :=
  inferInstanceAs (Decidable (_ = _))

/-- The opcode exists for its types, and if the result is an `i1`, the opcode makes one or copies one. -/
def StructTyped (host : PNHost) (module : PNModule) (f : PNFunction) : PNRuntimeInstruction → Prop
  | .binop (some (.binop op t)) res value0Id value1Id => t ∈ op.types ∧
    (f.IsInt1 host module res → t = .int1 ∧ f.IsInt1 host module value0Id ∧ f.IsInt1 host module value1Id)
  | .cast (some (.cast op t t1)) res _ => (t, t1) ∈ op.types ∧ (f.IsInt1 host module res → t1 = .int1)
  | .cmp2 (some (.cmp2 op t)) _ _ _ => t ∈ op.types
  | .vselect res _ trueValueId falseValueId =>
    f.IsInt1 host module res → f.IsInt1 host module trueValueId ∧ f.IsInt1 host module falseValueId
  | .alloca _ res _ _ | .load _ res _ _ => ¬f.IsInt1 host module res
  | _ => True

section Stream

variable {host : PNHost} {module module' : PNModule} {f f' : PNFunction} {inst : PNInstruction} {functionId base : Nat}
  {offsets : List Nat} {r : PNRuntimeInstruction} {t : PNBasicType} {id : Nat}

theorem isInt1_congr (ht : module'.types = module.types) (hv : module'.values = module.values) (hf : f'.values = f.values) :
    f'.IsInt1 host module' = f.IsInt1 host module := by
  funext valueId
  simp only [PNFunction.IsInt1, basicTypeOf, pnFunctionGetValue, PNModule.type, pnFunctionNumValues, ht, hv, hf]

theorem structTyped_congr (ht : module'.types = module.types) (hv : module'.values = module.values) (hf : f'.values = f.values) :
    StructTyped host module' f' = StructTyped host module f := by
  have hint : f'.IsInt1 host module' = f.IsInt1 host module := isInt1_congr ht hv hf
  funext r
  simp only [StructTyped, hint]

theorem isInt1_of_basicTypeOf (h : basicTypeOf host module f id = .ok t) : f.IsInt1 host module id ↔ t = .int1 := by
  rw [PNFunction.IsInt1, h]
  exact Option.some_inj

theorem basicTypeOf_value {v : PNValue} (h : (module.values ++ f.values)[id]? = some v) :
    basicTypeOf host module f id = .ok (module.type host v.typeId).basicType := by
  rw [basicTypeOf, pnFunctionGetValue, h]
  rfl

theorem typeOf_basicType {t0 : Nat} (h : f.typeOf module id = some t0) :
    basicTypeOf host module f id = .ok (module.type host t0).basicType := by
  obtain ⟨v, hv, hif⟩ := Option.bind_eq_some_iff.mp h
  split at hif
  · cases hif
  · cases hif
    exact basicTypeOf_value hv

/-- The result has one of two types, whose basic types lowering has found equal. -/
theorem isInt1_of_either {res id₀ id₁ : Nat} {v : PNValue} (hv : (module.values ++ f.values)[res]? = some v)
    (hor : ∃ t0 t1, f.typeOf module id₀ = some t0 ∧ f.typeOf module id₁ = some t1 ∧ (v.typeId = t0 ∨ v.typeId = t1))
    (h0 : basicTypeOf host module f id₀ = .ok t) (h1 : basicTypeOf host module f id₁ = .ok t) (hres : f.IsInt1 host module res) :
    t = .int1 := by
  obtain ⟨t0, t1, ht0, ht1, hor⟩ := hor
  have hint := (isInt1_of_basicTypeOf (basicTypeOf_value hv)).mp hres
  rcases hor with heq | heq
  · have := h0.symm.trans (typeOf_basicType ht0)
    rw [heq] at hint
    exact (Except.ok.inj this).trans hint
  · have := h1.symm.trans (typeOf_basicType ht1)
    rw [heq] at hint
    exact (Except.ok.inj this).trans hint

/-- Lowering checks the operands of an instruction; the type of the result follows. -/
theorem lowerInstruction_typed (hi : ResultTyped host module f inst)
    (h : lowerInstruction host module f offsets inst = .ok (some r)) : StructTyped host module f r := by
  cases inst with
  | binop res id₀ id₁ code flags =>
    obtain ⟨t, ht, h⟩ := bind_eq_ok.mp h
    obtain ⟨t1, ht1, h⟩ := bind_eq_ok.mp h
    split at h
    · cases h
    · rename_i heq
      obtain rfl := not_not.mp heq
      obtain ⟨opcode, ho, h⟩ := bind_eq_ok.mp h
      cases h
      unfold binopOpcode at ho
      split at ho
      · obtain ⟨o, ho', ho⟩ := bind_eq_ok.mp ho
        cases ho
        obtain ⟨hmem, rfl⟩ := ifType_eq_ok ho'
        refine ⟨hmem, fun hres => ?_⟩
        obtain ⟨v, hv, hor⟩ := hi res rfl
        have hint := isInt1_of_either hv hor ht ht1 hres
        exact ⟨hint, (isInt1_of_basicTypeOf ht).mpr hint, (isInt1_of_basicTypeOf ht1).mpr hint⟩
      · cases ho
        trivial
  | cast res id code typeId =>
    obtain ⟨t, ht, h⟩ := bind_eq_ok.mp h
    obtain ⟨opcode, ho, h⟩ := bind_eq_ok.mp h
    cases h
    unfold castOpcode at ho
    split at ho
    · dsimp only at ho
      split at ho
      · rename_i hmem
        cases ho
        refine ⟨hmem, fun hres => ?_⟩
        obtain ⟨v, hv, heq⟩ := hi res rfl
        have hint := (isInt1_of_basicTypeOf (basicTypeOf_value hv)).mp hres
        rw [← hint, show v.typeId = typeId from heq]
      · cases ho
    · cases ho
      trivial
  | ret valueId =>
    cases h
    split
    · trivial
    · trivial
  | br trueBb falseBb valueId =>
    rw [lowerInstruction] at h
    split at h
    · obtain ⟨t, _, h⟩ := bind_eq_ok.mp h
      obtain ⟨_, _, h⟩ := bind_eq_ok.mp h
      cases h
      trivial
    · cases h
      trivial
  | switch typeId valueId defaultBb cases caseBbs =>
    obtain ⟨t, _, h⟩ := bind_eq_ok.mp h
    obtain ⟨opcode, _, h⟩ := bind_eq_ok.mp h
    cases h
    trivial
  | unreachable =>
    cases h
    trivial
  | phi res typeId incoming => cases h
  | alloca res sizeId alignment =>
    obtain ⟨t, _, h⟩ := bind_eq_ok.mp h
    obtain ⟨opcode, _, h⟩ := bind_eq_ok.mp h
    cases h
    obtain ⟨v, hv, heq⟩ := hi res rfl
    intro hres
    have hint := (isInt1_of_basicTypeOf (basicTypeOf_value hv)).mp hres
    rw [show (module.type host v.typeId).basicType = .int32 from heq] at hint
    cases hint
  | load res srcId alignment typeId =>
    obtain ⟨t, _, h⟩ := bind_eq_ok.mp h
    split at h
    · cases h
    · obtain ⟨opcode, ho, h⟩ := bind_eq_ok.mp h
      cases h
      obtain ⟨hmem, -⟩ := ifType_eq_ok ho
      obtain ⟨v, hv, heq⟩ := hi res rfl
      intro hres
      have hint := (isInt1_of_basicTypeOf (basicTypeOf_value hv)).mp hres
      rw [show v.typeId = typeId from heq] at hint
      rw [hint] at hmem
      exact absurd hmem (by decide)
  | store destId valueId alignment =>
    obtain ⟨t, _, h⟩ := bind_eq_ok.mp h
    obtain ⟨t1, _, h⟩ := bind_eq_ok.mp h
    split at h
    · cases h
    · obtain ⟨opcode, _, h⟩ := bind_eq_ok.mp h
      cases h
      trivial
  | cmp2 res id₀ id₁ code =>
    obtain ⟨t, _, h⟩ := bind_eq_ok.mp h
    obtain ⟨t1, _, h⟩ := bind_eq_ok.mp h
    split at h
    · cases h
    · obtain ⟨opcode, ho, h⟩ := bind_eq_ok.mp h
      cases h
      unfold cmp2Opcode at ho
      split at ho
      · obtain ⟨o, ho', ho⟩ := bind_eq_ok.mp ho
        cases ho
        obtain ⟨hmem, rfl⟩ := ifType_eq_ok ho'
        exact hmem
      · cases ho
        trivial
  | vselect res condId id₀ id₁ =>
    obtain ⟨t, ht, h⟩ := bind_eq_ok.mp h
    obtain ⟨t1, ht1, h⟩ := bind_eq_ok.mp h
    obtain ⟨t2, _, h⟩ := bind_eq_ok.mp h
    split at h
    · cases h
    · split at h
      · cases h
      · rename_i heq
        cases h
        obtain rfl := not_not.mp heq
        intro hres
        obtain ⟨v, hv, hor⟩ := hi res rfl
        have hint := isInt1_of_either hv hor ht ht1 hres
        exact ⟨(isInt1_of_basicTypeOf ht).mpr hint, (isInt1_of_basicTypeOf ht1).mpr hint⟩
  | forwardtyperef valueId typeId => cases h
  | call res cc calleeId argIds returnTypeId isIndirect isTailCall =>
    obtain ⟨opcode, _, h⟩ := bind_eq_ok.mp h
    cases h
    trivial

/-- What is in the stream: lowered instructions, phi tables and the trap at the end. -/
def Origin (host : PNHost) (module : PNModule) (f : PNFunction) (r : PNRuntimeInstruction) : Prop :=
  (∃ offsets, ∃ inst ∈ f.insts, lowerInstruction host module f offsets inst = .ok (some r)) ∨
    (∃ num fast assigns, r = .phiTable num fast assigns) ∨ r = trapInstruction

theorem writeInstructions_mem : ∀ {insts : List PNInstruction} {offset next : Nat} {s : PNIstream},
    writeInstructions host module f offsets true insts offset = .ok (next, s) →
    ∀ e ∈ s, ∃ inst ∈ insts, lowerInstruction host module f offsets inst = .ok (some e.2)
  | [], _, _, _, h => by
    cases h
    exact fun _ he => (List.not_mem_nil he).elim
  | inst :: rest, offset, next, s, h => by
    obtain ⟨stored, hst, h⟩ := bind_eq_ok.mp h
    obtain ⟨⟨next', s'⟩, hs', h⟩ := bind_eq_ok.mp h
    cases h
    intro e he
    rcases List.mem_append.mp he with he | he
    · obtain ⟨r, hr, rfl⟩ := List.mem_map.mp he
      rw [storedInstruction, if_pos rfl, Option.mem_toList.mp hr] at hst
      exact ⟨inst, List.mem_cons_self .., hst⟩
    · obtain ⟨i, hi, hlow⟩ := writeInstructions_mem hs' e he
      exact ⟨i, List.mem_cons_of_mem _ hi, hlow⟩

theorem writeBlocks_mem : ∀ {bbs : List PNBasicBlock} {bbOffsets : List Nat} {offset last : Nat} {s : PNIstream},
    (∀ bb ∈ bbs, ∀ inst ∈ bb.instructions, inst ∈ f.insts) →
    writeBlocks host module f offsets bbs bbOffsets offset = .ok (last, s) → ∀ e ∈ s, Origin host module f e.2
  | [], _, _, _, _, _, h => by
    cases h
    exact fun _ he => (List.not_mem_nil he).elim
  | _ :: _, [], _, _, _, _, h => by
    cases h
    exact fun _ he => (List.not_mem_nil he).elim
  | bb :: bbs, bbOffset :: bbOffsets, offset, last, s, hin, h => by
    obtain ⟨hbb, hbbs⟩ := List.forall_mem_cons.mp hin
    obtain ⟨offset', _, h⟩ := bind_eq_ok.mp h
    obtain ⟨_, h⟩ := pnCheck_bind_eq_ok.mp h
    obtain ⟨⟨next, t⟩, ht, h⟩ := bind_eq_ok.mp h
    obtain ⟨⟨last', more⟩, hmore, h⟩ := bind_eq_ok.mp h
    cases h
    obtain ⟨⟨mid, u⟩, hu, ht⟩ := bind_eq_ok.mp ht
    have hlow : ∀ e ∈ u, Origin host module f e.2 := by
      intro e he
      obtain ⟨inst, hinst, hlow⟩ := writeInstructions_mem hu e he
      exact .inl ⟨offsets, inst, hbb inst hinst, hlow⟩
    intro e he
    rcases List.mem_append.mp he with he | he
    · dsimp only at ht
      split at ht
      · cases ht
        rcases List.mem_append.mp he with he | he
        · exact hlow e he
        · rw [List.mem_singleton.mp he]
          exact .inr (.inl ⟨_, _, _, rfl⟩)
      · cases ht
        exact hlow e he
    · exact writeBlocks_mem hbbs hmore e he

theorem calculateOpcodes_mem (h : pnFunctionCalculateOpcodes host module f base = .ok f') :
    ∃ stream, f'.instructions = some (base, stream) ∧ ∀ e ∈ stream, Origin host module f e.2 := by
  obtain ⟨⟨bbOffsets, last⟩, _, h⟩ := bind_eq_ok.mp h
  dsimp only at h
  split at h
  · cases h
  · obtain ⟨⟨last', s⟩, hs, h⟩ := bind_eq_ok.mp h
    cases h
    refine ⟨_, rfl, ?_⟩
    intro e he
    rcases List.mem_append.mp he with he | he
    · exact writeBlocks_mem (fun bb hbb inst hi => List.mem_flatMap.mpr ⟨bb, hbb, hi⟩) hs e he
    · rw [List.mem_singleton.mp he]
      exact .inr (.inr rfl)

theorem Origin.typed (h : Origin host module f r) (hi : ∀ inst ∈ f.insts, ResultTyped host module f inst) :
    StructTyped host module f r := by
  rcases h with ⟨offsets, inst, hinst, hlow⟩ | ⟨num, fast, assigns, rfl⟩ | rfl
  · exact lowerInstruction_typed (hi inst hinst) hlow
  · trivial
  · trivial

/-- A function whose stream is typed. -/
structure StreamTyped (host : PNHost) (module : PNModule) (functionId : Nat) (f : PNFunction) : Prop where
  args : ∀ {isVarargs returnType argTypes}, module.type host f.typeId = .function isVarargs returnType argTypes →
    ∀ {i t : Nat}, argTypes[i]? = some t → f.values[i]? = some ⟨.functionArg i, t⟩
  constants : ConstantsOk host module f
  stream : ∃ stream, f.instructions = some (host.instructions functionId, stream) ∧ ∀ e ∈ stream, StructTyped host module f e.2

theorem BodyOk.congr_module (h : BodyOk host module f) (ht : module'.types = module.types) (hv : module'.values = module.values) :
    BodyOk host module' f := by
  constructor
  · intro isVarargs returnType argTypes htype
    rw [PNModule.type_congr ht] at htype
    exact h.args htype
  · intro inst hinst r hr
    obtain ⟨i, v, hi, hget, hcode, hg⟩ := h.defines inst hinst r hr
    refine ⟨i, v, hv ▸ hi, hget, hcode, ?_⟩
    cases inst <;> first | exact hg | exact (congrArg _ (PNModule.type_congr ht _)).trans hg
  · exact h.distinct
  · exact h.constants.congr ht rfl rfl
  · exact h.small

/-- **The stream of a body that was read behind the tables of the module is typed.** -/
theorem BodyRead.typed (h : BodyRead host module functionId f) (hm : module.TypesRead) : StreamTyped host module functionId f := by
  obtain ⟨module', f₀, g, ht, hv, hok, hp, hsame⟩ := h
  have hm' : module'.TypesRead := ⟨ht ▸ hm.table, hv ▸ hm.values⟩
  have htyped := passes_types (hok.congr_module ht hv) hm' hp
  obtain ⟨f₁, f₂, h₁, h₂, h₃, hg⟩ := pnFunctionPasses_cases hp
  obtain ⟨stream, hstream, horigin⟩ := calculateOpcodes_mem h₃
  have hvalues : f₂.values = g.values := by rw [hg]
  have hresults : ∀ inst ∈ f₂.insts, ResultTyped host module' f₂ inst := by
    have := htyped.results
    rw [hg] at this
    exact this
  constructor
  · intro isVarargs returnType argTypes htype i t hi
    rw [hsame.typeId, ← PNModule.type_congr ht] at htype
    rw [hsame.values]
    exact htyped.args htype hi
  · exact htyped.constants.congr ht.symm hsame.constants hsame.values
  · refine ⟨stream, hsame.instructions.trans hstream, fun e he => ?_⟩
    have := (horigin e he).typed hresults
    rwa [← structTyped_congr ht hv (hvalues.trans hsame.values.symm)]

end Stream

end Pnacl
