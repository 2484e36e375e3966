import Pnacl.TypeEquations

/-!
# The order of operands

The implicit cast of a 32-bit integer and a function type is the type of the second operand, so the order of operands decides
which of the two a result gets, and a later cast may accept one and refuse the other. A table without both kinds of types is
never affected (`operand_order_iff`), and a table with one type of each kind gives at least the same basic types
(`orderFree_iff`).
-/

namespace Pnacl

open Lib

/-! ## Swapping -/

/-- The operands of a BINOP or the arms of a VSELECT the other way round. -/
def PNInstruction.swapOperands : PNInstruction → PNInstruction
  | .binop resultValueId value0Id value1Id binopOpcode flags => .binop resultValueId value1Id value0Id binopOpcode flags
  | .vselect resultValueId condId trueValueId falseValueId => .vselect resultValueId condId falseValueId trueValueId
  | inst => inst

/-- The function in which the instructions of a set are swapped. -/
def PNFunction.swapOperands (f : PNFunction) (S : PNInstruction → Bool) : PNFunction :=
  { f with bbs := f.bbs.map fun bb =>
      { bb with instructions := bb.instructions.map fun inst => if S inst then inst.swapOperands else inst } }

/-- Both functions are accepted or none is, and their values have the same basic types. -/
def SameTyping (host : PNHost) (module : PNModule) (f f' : PNFunction) : Prop :=
  ((∃ g, pnFunctionCalculateResultValueTypes host module f = .ok g) ↔
      ∃ g, pnFunctionCalculateResultValueTypes host module f' = .ok g) ∧
    ∀ g g', pnFunctionCalculateResultValueTypes host module f = .ok g →
      pnFunctionCalculateResultValueTypes host module f' = .ok g' →
      ∀ v, (g.typeOf module v).map (fun t => (module.type host t).basicType) =
        (g'.typeOf module v).map fun t => (module.type host t).basicType

/-- Swapping operands changes nothing, in any function. -/
def OrderFree (host : PNHost) (module : PNModule) : Prop :=
  ∀ f, Typable module f → ∀ S, SameTyping host module f (f.swapOperands S)

/-- A 32-bit integer type of the table. -/
def PNModule.IsWord (module : PNModule) (t : Nat) : Prop := ∃ basicType, module.types[t]? = some (.integer 32 basicType)

/-- A function type of the table. -/
def PNModule.IsFunction (module : PNModule) (t : Nat) : Prop :=
  ∃ isVarargs returnType argTypes, module.types[t]? = some (.function isVarargs returnType argTypes)

/-- The cast of a 32-bit integer type and a function type gives the same type in both orders. -/
def CastSymmetric (host : PNHost) (module : PNModule) : Prop :=
  ∀ t0 t1, module.IsWord t0 → module.IsFunction t1 →
    pnTypeGetImplicitCastType host module t0 t1 = pnTypeGetImplicitCastType host module t1 t0

/-- A module as a type block and the module's values leave it. -/
structure TypedModule (module : PNModule) : Prop where
  small : module.types.length < 2 ^ 16
  words : ∀ {basicType}, .integer 32 basicType ∈ module.types → basicType = .int32
  values : ∀ value ∈ module.values, value.typeId = PN_INVALID_TYPE_ID ∨ value.typeId < module.types.length

section Swap

variable {f : PNFunction} {S : PNInstruction → Bool} {module : PNModule} {e : Equation Nat}

theorem swapOperands_equation (inst : PNInstruction) : inst.swapOperands.equation = inst.equation.map Equation.swap := by
  cases inst <;> rfl

theorem insts_swapOperands : (f.swapOperands S).insts = f.insts.map fun inst => if S inst then inst.swapOperands else inst := by
  simp only [PNFunction.insts, PNFunction.swapOperands, List.flatMap_map, List.map_flatMap]

theorem mem_swapOperands (h : e ∈ (f.swapOperands S).equations) : e ∈ f.equations ∨ e.swap ∈ f.equations := by
  rw [PNFunction.equations, insts_swapOperands, List.filterMap_map] at h
  obtain ⟨inst, hin, he⟩ := List.mem_filterMap.mp h
  dsimp only [Function.comp] at he
  split at he
  · rw [swapOperands_equation] at he
    obtain ⟨e', he', rfl⟩ := Option.map_eq_some_iff.mp he
    exact .inr (List.mem_filterMap.mpr ⟨inst, hin, he'⟩)
  · exact .inl (List.mem_filterMap.mpr ⟨inst, hin, he⟩)

theorem mem_or_swap_mem (h : e ∈ f.equations) : e ∈ (f.swapOperands S).equations ∨ e.swap ∈ (f.swapOperands S).equations := by
  obtain ⟨inst, hin, he⟩ := List.mem_filterMap.mp h
  have hmem : (if S inst then inst.swapOperands else inst) ∈ (f.swapOperands S).insts := by
    rw [insts_swapOperands]
    exact List.mem_map_of_mem hin
  split at hmem
  · right
    refine List.mem_filterMap.mpr ⟨_, hmem, ?_⟩
    rw [swapOperands_equation, he]
    rfl
  · exact .inl (List.mem_filterMap.mpr ⟨_, hmem, he⟩)

theorem results_swapOperands : (f.swapOperands S).equations.map Equation.result = f.equations.map Equation.result := by
  rw [PNFunction.equations, insts_swapOperands, List.filterMap_map, List.map_filterMap, PNFunction.equations, List.map_filterMap]
  congr 1
  funext inst
  dsimp only [Function.comp]
  split
  · rw [swapOperands_equation]
    cases inst.equation <;> rfl
  · rfl

theorem Typable.swapOperands (h : Typable module f) : Typable module (f.swapOperands S) := by
  constructor
  · exact h.types
  · exact h.known
  · intro e he
    rcases mem_swapOperands he with he | he
    · exact h.operands e he
    · exact (h.operands e.swap he).symm
  · intro e he
    rcases mem_swapOperands he with he | he
    · exact h.results e he
    · exact h.results e.swap he
  · intro e he
    rcases mem_swapOperands he with he | he
    · exact h.untyped e he
    · exact h.untyped e.swap he
  · rw [results_swapOperands]
    exact h.distinct

end Swap

/-! ## Casts -/

section Casts

variable {host : PNHost} {module : PNModule} {t t0 t1 : Nat}

/-- A function type and a 32-bit integer type, in either order. -/
def PNModule.Mixed (module : PNModule) (t0 t1 : Nat) : Prop :=
  module.IsWord t0 ∧ module.IsFunction t1 ∨ module.IsFunction t0 ∧ module.IsWord t1

/-- A 32-bit integer type or a function type. -/
def PNModule.IsPointer (module : PNModule) (t : Nat) : Prop := module.IsWord t ∨ module.IsFunction t

theorem type_of_lt (h : t < module.types.length) : module.types[t]? = some (module.type host t) := by
  rw [PNModule.type, List.getElem?_eq_getElem h, List.getD_eq_getElem?_getD, List.getElem?_eq_getElem h]
  rfl

theorem not_word_and_function (hw : module.IsWord t) (hf : module.IsFunction t) : False := by
  obtain ⟨basicType, hw⟩ := hw
  obtain ⟨isVarargs, returnType, argTypes, hf⟩ := hf
  cases hw.symm.trans hf

theorem PNModule.IsPointer.lt (h : module.IsPointer t) : t < module.types.length := by
  rcases h with ⟨_, h⟩ | ⟨_, _, _, h⟩ <;> exact (List.getElem?_eq_some_iff.mp h).1

theorem isWord_iff (h : t < module.types.length) :
    module.IsWord t ↔ ∃ basicType, module.type host t = .integer 32 basicType := by
  rw [PNModule.IsWord, type_of_lt h]
  exact exists_congr fun _ => Option.some_inj

theorem isFunction_iff (h : t < module.types.length) :
    module.IsFunction t ↔ ∃ isVarargs returnType argTypes, module.type host t = .function isVarargs returnType argTypes := by
  rw [PNModule.IsFunction, type_of_lt h]
  exact exists_congr fun _ => exists_congr fun _ => exists_congr fun _ => Option.some_inj

theorem cast_of_mixed (hm : module.Mixed t0 t1) : pnTypeGetImplicitCastType host module t0 t1 = t1 := by
  unfold pnTypeGetImplicitCastType
  split
  · assumption
  · rcases hm with ⟨hw, hf⟩ | ⟨hf, hw⟩
    · obtain ⟨b, hw⟩ := (isWord_iff (PNModule.IsPointer.lt (.inl hw))).mp hw
      obtain ⟨v, r, args, hf⟩ := (isFunction_iff (PNModule.IsPointer.lt (.inr hf))).mp hf
      rw [hw, hf]
      rfl
    · obtain ⟨b, hw⟩ := (isWord_iff (PNModule.IsPointer.lt (.inl hw))).mp hw
      obtain ⟨v, r, args, hf⟩ := (isFunction_iff (PNModule.IsPointer.lt (.inr hf))).mp hf
      rw [hw, hf]
      rfl

theorem cast_of_not_mixed (h0 : t0 < module.types.length) (h1 : t1 < module.types.length) (hne : t0 ≠ t1)
    (hm : ¬module.Mixed t0 t1) : pnTypeGetImplicitCastType host module t0 t1 = PN_INVALID_TYPE_ID := by
  unfold pnTypeGetImplicitCastType
  rw [if_neg hne]
  split
  · rename_i hf hw
    split
    · rename_i hwidth
      subst hwidth
      exact absurd (.inr ⟨(isFunction_iff h0).mpr ⟨_, _, _, hf⟩, (isWord_iff h1).mpr ⟨_, hw⟩⟩) hm
    · rfl
  · rename_i hw hf
    split
    · rename_i hwidth
      subst hwidth
      exact absurd (.inl ⟨(isWord_iff h0).mpr ⟨_, hw⟩, (isFunction_iff h1).mpr ⟨_, _, _, hf⟩⟩) hm
    · rfl
  · rfl

/-- **A cast gives the type of both operands, or the second of a function type and a 32-bit integer type.** -/
theorem implicitCast_iff (hsmall : module.types.length < 2 ^ 16) (h0 : t0 < module.types.length)
    (h1 : t1 < module.types.length) :
    implicitCast host module t0 t1 = some t ↔ t = t1 ∧ (t0 = t1 ∨ module.Mixed t0 t1) := by
  rw [implicitCast_eq_some]
  by_cases hm : module.Mixed t0 t1
  · rw [cast_of_mixed hm]
    constructor
    · rintro ⟨rfl, -⟩
      exact ⟨rfl, .inr hm⟩
    · rintro ⟨rfl, -⟩
      exact ⟨rfl, h1⟩
  by_cases heq : t0 = t1
  · subst heq
    have hcast : pnTypeGetImplicitCastType host module t0 t0 = t0 := if_pos rfl
    rw [hcast]
    constructor
    · rintro ⟨rfl, -⟩
      exact ⟨rfl, .inl rfl⟩
    · rintro ⟨rfl, -⟩
      exact ⟨rfl, h1⟩
  · rw [cast_of_not_mixed h0 h1 heq hm]
    refine iff_of_false ?_ ?_
    · rintro ⟨rfl, hlt⟩
      simp only [PN_INVALID_TYPE_ID] at hlt
      omega
    · rintro ⟨-, h | h⟩
      · exact heq h
      · exact hm h

theorem PNModule.IsWord.lt (h : module.IsWord t) : t < module.types.length := PNModule.IsPointer.lt (.inl h)

theorem PNModule.IsFunction.lt (h : module.IsFunction t) : t < module.types.length := PNModule.IsPointer.lt (.inr h)

theorem implicitCast_of_mixed (hsmall : module.types.length < 2 ^ 16) (hm : module.Mixed t0 t1) :
    implicitCast host module t0 t1 = some t1 := by
  rcases hm with ⟨hw, hf⟩ | ⟨hf, hw⟩
  · exact (implicitCast_iff hsmall hw.lt hf.lt).mpr ⟨rfl, .inr (.inl ⟨hw, hf⟩)⟩
  · exact (implicitCast_iff hsmall hf.lt hw.lt).mpr ⟨rfl, .inr (.inr ⟨hf, hw⟩)⟩

theorem implicitCast_of_words (hsmall : module.types.length < 2 ^ 16) (h0 : module.IsWord t0) (h1 : module.IsWord t1)
    (hne : t0 ≠ t1) : implicitCast host module t0 t1 = none := by
  rw [Option.eq_none_iff_forall_ne_some]
  intro t ht
  rcases ((implicitCast_iff hsmall h0.lt h1.lt).mp ht).2 with h | ⟨-, hf⟩ | ⟨hf, -⟩
  · exact hne h
  · exact not_word_and_function h1 hf
  · exact not_word_and_function h0 hf

theorem implicitCast_of_functions (hsmall : module.types.length < 2 ^ 16) (h0 : module.IsFunction t0)
    (h1 : module.IsFunction t1) (hne : t0 ≠ t1) : implicitCast host module t0 t1 = none := by
  rw [Option.eq_none_iff_forall_ne_some]
  intro t ht
  rcases ((implicitCast_iff hsmall h0.lt h1.lt).mp ht).2 with h | ⟨hw, -⟩ | ⟨-, hw⟩
  · exact hne h
  · exact not_word_and_function hw h0
  · exact not_word_and_function hw h1

/-- The two pointer types that can be told apart are of different kinds: there is no third one. -/
def NoThird (module : PNModule) : Prop :=
  ¬∃ t0 t1 t2, module.IsWord t0 ∧ module.IsFunction t1 ∧ t2 ≠ t0 ∧ t2 ≠ t1 ∧ module.IsPointer t2

/-- The types that swapping may exchange. -/
def Exchangeable (module : PNModule) (t t' : Nat) : Prop :=
  t < module.types.length ∧ t' < module.types.length ∧
    (t = t' ∨ module.IsPointer t ∧ module.IsPointer t' ∧ ∃ w f, module.IsWord w ∧ module.IsFunction f)

/-- Where there is no third one, two pointer types can be cast to each other. -/
theorem cast_pointers (hsmall : module.types.length < 2 ^ 16) (hthird : NoThird module) {w f : Nat} (hw : module.IsWord w)
    (hf : module.IsFunction f) (h0 : module.IsPointer t0) (h1 : module.IsPointer t1) :
    implicitCast host module t0 t1 = some t1 := by
  rw [implicitCast_iff hsmall h0.lt h1.lt]
  refine ⟨rfl, ?_⟩
  by_cases heq : t0 = t1
  · exact .inl heq
  rcases h0 with h0 | h0
  · rcases h1 with h1 | h1
    · exact absurd ⟨t0, f, t1, h0, hf, Ne.symm heq, fun h => not_word_and_function h1 (h ▸ hf), .inl h1⟩ hthird
    · exact .inr (.inl ⟨h0, h1⟩)
  · rcases h1 with h1 | h1
    · exact .inr (.inr ⟨h0, h1⟩)
    · exact absurd ⟨w, t0, t1, hw, h0, fun h => not_word_and_function hw (h ▸ h1), Ne.symm heq, .inr h1⟩ hthird

/-- A cast respects exchangeable operands, in both orders. -/
theorem cast_exchangeable {a b a' b' : Nat} (hsmall : module.types.length < 2 ^ 16) (hthird : NoThird module)
    (hab : implicitCast host module a b = some t) (ha : Exchangeable module a a') (hb : Exchangeable module b b') :
    ∃ t', implicitCast host module a' b' = some t' ∧ Exchangeable module t t' := by
  obtain ⟨ha, ha', hea⟩ := ha
  obtain ⟨hb, hb', heb⟩ := hb
  rw [implicitCast_iff hsmall ha hb] at hab
  obtain ⟨rfl, hab⟩ := hab
  by_cases hpointer : module.IsPointer t ∧ ∃ w f, module.IsWord w ∧ module.IsFunction f
  · obtain ⟨ht, w, f, hw, hf⟩ := hpointer
    have hpa : module.IsPointer a := by
      rcases hab with rfl | ⟨ha, -⟩ | ⟨ha, -⟩
      · exact ht
      · exact .inl ha
      · exact .inr ha
    have hpa' : module.IsPointer a' := hea.elim (· ▸ hpa) (·.2.1)
    have hpb' : module.IsPointer b' := heb.elim (· ▸ ht) (·.2.1)
    exact ⟨b', cast_pointers hsmall hthird hw hf hpa' hpb', hb, hb', .inr ⟨ht, hpb', w, f, hw, hf⟩⟩
  · -- no type is exchanged here
    obtain rfl : a = t := by
      rcases hab with h | ⟨ha, hb⟩ | ⟨ha, hb⟩
      · exact h
      · exact absurd ⟨.inr hb, a, t, ha, hb⟩ hpointer
      · exact absurd ⟨.inl hb, t, a, hb, ha⟩ hpointer
    have hea : a = a' := hea.resolve_right fun h => hpointer ⟨h.1, h.2.2⟩
    have heb : a = b' := heb.resolve_right fun h => hpointer ⟨h.1, h.2.2⟩
    subst hea
    subst heb
    exact ⟨a, (implicitCast_iff hsmall ha ha).mpr ⟨rfl, .inl rfl⟩, ha, ha, .inl rfl⟩

theorem Exchangeable.symm {t' : Nat} (h : Exchangeable module t t') : Exchangeable module t' t := by
  obtain ⟨h0, h1, h2⟩ := h
  exact ⟨h1, h0, h2.imp Eq.symm fun h => ⟨h.2.1, h.1, h.2.2⟩⟩

theorem Exchangeable.trans {t' t'' : Nat} (h : Exchangeable module t t') (h' : Exchangeable module t' t'') :
    Exchangeable module t t'' := by
  refine ⟨h.1, h'.2.1, ?_⟩
  rcases h.2.2 with rfl | ⟨h0, h1, hex⟩
  · exact h'.2.2
  · rcases h'.2.2 with rfl | ⟨-, h2, -⟩
    · exact .inr ⟨h0, h1, hex⟩
    · exact .inr ⟨h0, h2, hex⟩

/-- The cast in the other order. -/
theorem cast_swap (hsmall : module.types.length < 2 ^ 16) (h0 : t0 < module.types.length) (h1 : t1 < module.types.length)
    (h : implicitCast host module t0 t1 = some t) :
    ∃ t', implicitCast host module t1 t0 = some t' ∧ Exchangeable module t t' := by
  obtain ⟨rfl, h⟩ := (implicitCast_iff hsmall h0 h1).mp h
  rcases h with rfl | ⟨hw, hf⟩ | ⟨hf, hw⟩
  · exact ⟨t0, (implicitCast_iff hsmall h0 h0).mpr ⟨rfl, .inl rfl⟩, h0, h0, .inl rfl⟩
  · exact ⟨t0, (implicitCast_iff hsmall h1 h0).mpr ⟨rfl, .inr (.inr ⟨hf, hw⟩)⟩, h1, h0, .inr ⟨.inr hf, .inl hw, t0, t, hw, hf⟩⟩
  · exact ⟨t0, (implicitCast_iff hsmall h1 h0).mpr ⟨rfl, .inr (.inl ⟨hw, hf⟩)⟩, h1, h0, .inr ⟨.inl hw, .inr hf, t, t0, hw, hf⟩⟩

/-- The basic type of a pointer is that of a 32-bit integer. -/
theorem PNModule.IsPointer.basicType (hm : TypedModule module) (h : module.IsPointer t) :
    (module.type host t).basicType = .int32 := by
  rcases h with h | h
  · obtain ⟨b, hb⟩ := h
    have htype : some (module.type host t) = some (.integer 32 b) :=
      (type_of_lt (PNModule.IsPointer.lt (.inl ⟨b, hb⟩))).symm.trans hb
    rw [Option.some.inj htype]
    exact hm.words (List.mem_of_getElem? hb)
  · obtain ⟨v, r, args, hf⟩ := (isFunction_iff (PNModule.IsPointer.lt (.inr h))).mp h
    rw [hf]
    rfl

theorem Exchangeable.basicType {t' : Nat} (hm : TypedModule module) (h : Exchangeable module t t') :
    (module.type host t).basicType = (module.type host t').basicType := by
  rcases h.2.2 with rfl | ⟨h0, h1, -⟩
  · rfl
  · rw [h0.basicType hm, h1.basicType hm]

end Casts

/-! ## Functions -/

section Functions

variable {host : PNHost} {module : PNModule} {f : PNFunction} {S : PNInstruction → Bool} {v t : Nat}

/-- With the operands in another order an exchangeable type can be derived. -/
theorem TypeDerives.reorient {f' : PNFunction} (h : Typable module f) (hthird : NoThird module)
    (htypes : f'.typeOf module = f.typeOf module) (heqs : ∀ e ∈ f.equations, e ∈ f'.equations ∨ e.swap ∈ f'.equations)
    (hd : TypeDerives host module f v t) : ∃ t', TypeDerives host module f' v t' ∧ Exchangeable module t t' := by
  rw [TypeDerives, htypes]
  apply Derives.reorient (R := Exchangeable module) ?_ heqs ?_ hd
  · intro v t hv
    exact ⟨h.known hv, h.known hv, .inl rfl⟩
  · intro a b t a' b' hab ha hb
    refine ⟨cast_exchangeable h.types hthird hab ha hb, ?_⟩
    obtain ⟨u, hba, htu⟩ := cast_swap h.types ha.1 hb.1 hab
    obtain ⟨t', hba', hut'⟩ := cast_exchangeable h.types hthird hba hb ha
    exact ⟨t', hba', htu.trans hut'⟩

/-- A type that can be derived is the type of the value in the result. -/
theorem typeOf_of_derives {g : PNFunction} (h : Typable module f)
    (hok : pnFunctionCalculateResultValueTypes host module f = .ok g) :
    g.typeOf module v = some t ↔ TypeDerives host module f v t := by
  rcases @calculateResultValueTypes_typed host module f h with ⟨g', hok', hi, htyped⟩ | ⟨⟨s, hs, -⟩, -⟩
  · cases hok.symm.trans hok'
    exact ⟨hi.sound.derives, hi.sound.value h.separate (hasResultType_equations htyped)⟩
  · cases hok.symm.trans hs

/-- One direction of `SameTyping`. -/
theorem accepted_of_reorient {f' g : PNFunction} (h : Typable module f) (h' : Typable module f') (hthird : NoThird module)
    (htypes : f'.typeOf module = f.typeOf module) (heqs : ∀ e ∈ f.equations, e ∈ f'.equations ∨ e.swap ∈ f'.equations)
    (heqs' : ∀ e ∈ f'.equations, e ∈ f.equations ∨ e.swap ∈ f.equations)
    (hok : pnFunctionCalculateResultValueTypes host module f = .ok g) :
    ∃ g', pnFunctionCalculateResultValueTypes host module f' = .ok g' := by
  have hall := (result_types_solution host module f h).1.mp ⟨g, hok⟩
  apply (result_types_solution host module f' h').1.mpr
  intro e he
  have hresult : ∃ t, TypeDerives host module f e.result t := (heqs' e he).elim (hall e ·) (hall e.swap ·)
  obtain ⟨t, ht⟩ := hresult
  obtain ⟨t', ht', -⟩ := ht.reorient h hthird htypes heqs
  exact ⟨t', ht'⟩

theorem basicType_of_reorient {f' g g' : PNFunction} (hm : TypedModule module) (h : Typable module f) (h' : Typable module f')
    (hthird : NoThird module) (htypes : f'.typeOf module = f.typeOf module)
    (heqs : ∀ e ∈ f.equations, e ∈ f'.equations ∨ e.swap ∈ f'.equations)
    (hok : pnFunctionCalculateResultValueTypes host module f = .ok g)
    (hok' : pnFunctionCalculateResultValueTypes host module f' = .ok g') (hv : g.typeOf module v = some t) :
    ∃ t', g'.typeOf module v = some t' ∧ (module.type host t).basicType = (module.type host t').basicType := by
  have hd := (typeOf_of_derives h hok).mp hv
  obtain ⟨t', ht', hex⟩ := hd.reorient h hthird htypes heqs
  exact ⟨t', (typeOf_of_derives h' hok').mpr ht', hex.basicType hm⟩

/-- Without a third pointer type the order of operands does not matter. -/
theorem orderFree_of_noThird (hm : TypedModule module) (hthird : NoThird module) : OrderFree host module := by
  intro f h S
  have h' : Typable module (f.swapOperands S) := h.swapOperands
  have htypes : (f.swapOperands S).typeOf module = f.typeOf module := rfl
  have heqs : ∀ e ∈ f.equations, e ∈ (f.swapOperands S).equations ∨ e.swap ∈ (f.swapOperands S).equations :=
    fun e => mem_or_swap_mem
  have heqs' : ∀ e ∈ (f.swapOperands S).equations, e ∈ f.equations ∨ e.swap ∈ f.equations := fun e => mem_swapOperands
  refine ⟨⟨?_, ?_⟩, ?_⟩
  · rintro ⟨g, hok⟩
    exact accepted_of_reorient h h' hthird htypes heqs heqs' hok
  · rintro ⟨g, hok⟩
    exact accepted_of_reorient h' h hthird htypes.symm heqs' heqs hok
  · intro g g' hok hok' v
    cases hv : g.typeOf module v with
    | some t =>
      obtain ⟨t', hv', hbasic⟩ := basicType_of_reorient hm h h' hthird htypes heqs hok hok' hv
      rw [hv', Option.map_some, Option.map_some, hbasic]
    | none =>
      cases hv' : g'.typeOf module v with
      | none => rfl
      | some t' =>
        obtain ⟨t, ht, -⟩ := basicType_of_reorient hm h' h hthird htypes.symm heqs' hok' hok hv'
        rw [hv] at ht
        cases ht

end Functions

/-! ## A chain of two casts -/

/-- The first instruction casts the first two values, the second its result and the third value. -/
def chain (module : PNModule) (t0 t1 t2 : Nat) : PNFunction :=
  oneBlock [⟨.localVar, t0⟩, ⟨.localVar, t1⟩, ⟨.localVar, t2⟩, ⟨.localVar, PN_INVALID_TYPE_ID⟩,
      ⟨.localVar, PN_INVALID_TYPE_ID⟩]
    [.binop (module.values.length + 3) module.values.length (module.values.length + 1) 0 0,
      .binop (module.values.length + 4) (module.values.length + 3) (module.values.length + 2) 0 0]

/-- The first instruction of the chain. -/
def chainFirst (module : PNModule) (inst : PNInstruction) : Bool := inst.derivedResult = some (module.values.length + 3)

section Chain

variable {host : PNHost} {module : PNModule} {t0 t1 t2 : Nat}

theorem chain_equations : (chain module t0 t1 t2).equations =
    [⟨module.values.length + 3, module.values.length, module.values.length + 1⟩,
      ⟨module.values.length + 4, module.values.length + 3, module.values.length + 2⟩] := rfl

theorem chain_swapped_equations : ((chain module t0 t1 t2).swapOperands (chainFirst module)).equations =
    [⟨module.values.length + 3, module.values.length + 1, module.values.length⟩,
      ⟨module.values.length + 4, module.values.length + 3, module.values.length + 2⟩] := by
  have hinsts : (chain module t0 t1 t2).insts =
      [.binop (module.values.length + 3) module.values.length (module.values.length + 1) 0 0,
        .binop (module.values.length + 4) (module.values.length + 3) (module.values.length + 2) 0 0] := rfl
  rw [PNFunction.equations, insts_swapOperands, hinsts]
  simp [chainFirst, PNInstruction.derivedResult, PNInstruction.swapOperands, PNInstruction.equation]

theorem chain_typeOf (i : Nat) : (chain module t0 t1 t2).typeOf module (module.values.length + i) =
    ((chain module t0 t1 t2).values[i]?).bind fun v => if v.typeId = PN_INVALID_TYPE_ID then none else some v.typeId := by
  rw [PNFunction.typeOf, List.getElem?_append_right (Nat.le_add_right _ _), Nat.add_sub_cancel_left]

theorem typed_ne_invalid {t : Nat} (hm : TypedModule module) (ht : t < module.types.length) : t ≠ PN_INVALID_TYPE_ID := by
  have := hm.small
  simp only [PN_INVALID_TYPE_ID]
  omega

theorem chain_typable (hm : TypedModule module) (h0 : t0 < module.types.length) (h1 : t1 < module.types.length)
    (h2 : t2 < module.types.length) : Typable module (chain module t0 t1 t2) := by
  refine ⟨hm.small, known_of_values ?_, ?_, ?_, ?_, ?_⟩
  · intro value hvalue
    rcases List.mem_append.mp hvalue with hvalue | hvalue
    · exact hm.values value hvalue
    · simp only [chain, oneBlock, List.mem_cons, List.not_mem_nil, or_false] at hvalue
      rcases hvalue with rfl | rfl | rfl | rfl | rfl
      · exact .inr h0
      · exact .inr h1
      · exact .inr h2
      · exact .inl rfl
      · exact .inl rfl
  · rw [chain_equations]
    simp [pnFunctionNumValues, chain, oneBlock]
  · rw [chain_equations]
    simp [pnFunctionNumValues, chain, oneBlock]
  · rw [chain_equations]
    intro e he
    rcases List.mem_cons.mp he with rfl | he
    · exact chain_typeOf 3
    · rw [List.mem_singleton.mp he]
      exact chain_typeOf 4
  · rw [chain_equations]
    simp

/-- **A third pointer type tells the two orders apart**: the chain is accepted in one of them only. -/
theorem not_orderFree_of_chain (hm : TypedModule module) (h0 : t0 < module.types.length) (h1 : t1 < module.types.length)
    (h2 : t2 < module.types.length) (h01 : implicitCast host module t0 t1 = some t1)
    (h10 : implicitCast host module t1 t0 = some t0) (h12 : implicitCast host module t1 t2 = some t2)
    (h02 : implicitCast host module t0 t2 = none) : ¬OrderFree host module := by
  intro hfree
  have h := chain_typable hm h0 h1 h2
  have hs : Typable module ((chain module t0 t1 t2).swapOperands (chainFirst module)) := h.swapOperands
  have htype0 : (chain module t0 t1 t2).typeOf module module.values.length = some t0 :=
    (chain_typeOf 0).trans (if_neg (typed_ne_invalid hm h0))
  have htype1 : (chain module t0 t1 t2).typeOf module (module.values.length + 1) = some t1 :=
    (chain_typeOf 1).trans (if_neg (typed_ne_invalid hm h1))
  have htype2 : (chain module t0 t1 t2).typeOf module (module.values.length + 2) = some t2 :=
    (chain_typeOf 2).trans (if_neg (typed_ne_invalid hm h2))
  have haccepted : ∃ g, pnFunctionCalculateResultValueTypes host module (chain module t0 t1 t2) = .ok g := by
    apply (result_types_solution host module _ h).1.mpr
    have hfirst : TypeDerives host module (chain module t0 t1 t2) (module.values.length + 3) t1 :=
      .step (e := ⟨module.values.length + 3, module.values.length, module.values.length + 1⟩) (List.mem_cons_self ..)
        (.known htype0) (.known htype1) h01
    intro e he
    rw [chain_equations] at he
    rcases List.mem_cons.mp he with rfl | he
    · exact ⟨t1, hfirst⟩
    · rw [List.mem_singleton.mp he]
      refine ⟨t2, .step ?_ hfirst (.known htype2) h12⟩
      exact List.mem_cons_of_mem _ (List.mem_cons_self ..)
  -- swapped, the first result has the type `t0`, which cannot be cast with `t2`
  have hswapped := (result_types_solution host module _ hs).1.mp ((hfree _ h _).1.mp haccepted)
  have hmem : (⟨module.values.length + 3, module.values.length + 1, module.values.length⟩ : Equation Nat) ∈
      ((chain module t0 t1 t2).swapOperands (chainFirst module)).equations := by
    rw [chain_swapped_equations]
    exact List.mem_cons_self ..
  have hmem' : (⟨module.values.length + 4, module.values.length + 3, module.values.length + 2⟩ : Equation Nat) ∈
      ((chain module t0 t1 t2).swapOperands (chainFirst module)).equations := by
    rw [chain_swapped_equations]
    exact List.mem_cons_of_mem _ (List.mem_cons_self ..)
  have hfirst : TypeDerives host module ((chain module t0 t1 t2).swapOperands (chainFirst module)) (module.values.length + 3) t0 :=
    .step (e := ⟨module.values.length + 3, module.values.length + 1, module.values.length⟩) hmem (.known htype1)
      (.known htype0) h10
  obtain ⟨t, ht⟩ := hswapped _ hmem'
  obtain ⟨a, b, ha, hb, hop⟩ := ht.result hs.separate hmem'
  rw [hfirst.unique hs.separate ha, Derives.unique hs.separate (.known htype2) hb, h02] at hop
  cases hop

end Chain

section Modules

variable {host : PNHost} {module : PNModule}

/-- **No function is affected if and only if there is no third pointer type.** -/
theorem orderFree_iff (hm : TypedModule module) : OrderFree host module ↔ NoThird module := by
  refine ⟨?_, orderFree_of_noThird hm⟩
  rintro hfree ⟨w, f, x, hw, hf, hxw, hxf, hx⟩
  have hwf : implicitCast host module w f = some f := implicitCast_of_mixed hm.small (.inl ⟨hw, hf⟩)
  have hfw : implicitCast host module f w = some w := implicitCast_of_mixed hm.small (.inr ⟨hf, hw⟩)
  rcases hx with hx | hx
  · exact not_orderFree_of_chain hm hw.lt hf.lt hx.lt hwf hfw (implicitCast_of_mixed hm.small (.inr ⟨hf, hx⟩))
      (implicitCast_of_words hm.small hw hx (Ne.symm hxw)) hfree
  · exact not_orderFree_of_chain hm hf.lt hw.lt hx.lt hfw hwf (implicitCast_of_mixed hm.small (.inl ⟨hw, hx⟩))
      (implicitCast_of_functions hm.small hf hx (Ne.symm hxf)) hfree

/-- **Operands can be swapped everywhere if and only if the table does not have both a 32-bit integer type and a function type.**
Where it has one of each and no other, the cast is not symmetric, but no function is affected. -/
theorem operand_order_iff (host : PNHost) (module : PNModule) (hm : TypedModule module) :
    (OrderFree host module ∧ CastSymmetric host module ↔ ¬∃ w f, module.IsWord w ∧ module.IsFunction f) ∧
      (OrderFree host module ↔ NoThird module) := by
  refine ⟨⟨?_, ?_⟩, orderFree_iff hm⟩
  · rintro ⟨-, hsymm⟩ ⟨w, f, hw, hf⟩
    have heq := hsymm w f hw hf
    rw [cast_of_mixed (.inl ⟨hw, hf⟩), cast_of_mixed (.inr ⟨hf, hw⟩)] at heq
    subst heq
    exact not_word_and_function hw hf
  · intro hnone
    refine ⟨(orderFree_iff hm).mpr ?_, fun w f hw hf => absurd ⟨w, f, hw, hf⟩ hnone⟩
    rintro ⟨w, f, x, hw, hf, -⟩
    exact hnone ⟨w, f, hw, hf⟩

end Modules

/-- A 32-bit integer type and two function types. -/
def demoPointers : PNModule :=
  { pnModuleInit ⟨fun _ => 0, 2 ^ 16⟩ with types := [.integer 32 .int32, .function 0 0 [], .function 0 0 [0]] }

/-- The chain of a function, an integer and another function is accepted, with the operands of its first instruction swapped it is
not. -/
theorem swapped_chain_refused :
    ¬(OrderFree zeroHost demoPointers ∧ CastSymmetric zeroHost demoPointers) ∧
      (∃ g, pnFunctionCalculateResultValueTypes zeroHost demoPointers (chain demoPointers 1 0 2) = .ok g) ∧
      ¬∃ g, pnFunctionCalculateResultValueTypes zeroHost demoPointers
        ((chain demoPointers 1 0 2).swapOperands (chainFirst demoPointers)) = .ok g := by
  have htyped : Typable demoPointers (chain demoPointers 1 0 2) := by
    refine ⟨by decide, known_of_values ?_, by decide, by decide, by decide, by decide⟩
    decide
  have haccepted : ∃ g, pnFunctionCalculateResultValueTypes zeroHost demoPointers (chain demoPointers 1 0 2) = .ok g := by
    have hsome : (pnFunctionCalculateResultValueTypes zeroHost demoPointers (chain demoPointers 1 0 2)).toOption.map
        (fun _ => ()) = some () := by decide +kernel
    obtain ⟨g, hg, -⟩ := eq_ok_of_toOption hsome
    exact ⟨g, hg⟩
  have hrefused : ¬∃ g, pnFunctionCalculateResultValueTypes zeroHost demoPointers
      ((chain demoPointers 1 0 2).swapOperands (chainFirst demoPointers)) = .ok g := by
    rintro ⟨g, hg⟩
    have hnone : (pnFunctionCalculateResultValueTypes zeroHost demoPointers
        ((chain demoPointers 1 0 2).swapOperands (chainFirst demoPointers))).toOption.isSome = false := by decide +kernel
    rw [hg] at hnone
    cases hnone
  exact ⟨fun h => hrefused ((h.1 _ htyped _).1.mp haccepted), haccepted, hrefused⟩

/-- Without function types the operands can be swapped. -/
theorem operand_order_iff_words : OrderFree zeroHost demoWords ∧ CastSymmetric zeroHost demoWords := by
  have hm : TypedModule demoWords := by
    refine ⟨by decide, ?_, by decide⟩
    intro basicType hmem
    cases List.mem_singleton.mp hmem
    rfl
  apply (operand_order_iff zeroHost demoWords hm).1.mpr
  rintro ⟨w, f, -, isVarargs, returnType, argTypes, hf⟩
  cases List.mem_singleton.mp (List.mem_of_getElem? hf)

end Pnacl
