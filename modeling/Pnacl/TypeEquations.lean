import Mathlib.Data.List.Nodup
import Pnacl.Lib.Equations
import Pnacl.ResultTypes

/-!
# The types of results as a solution of equations

Every BINOP and VSELECT says that the type of its result is the implicit cast of the types of its operands. The pass applies
these equations in an order of its own: the loops keep the types that they have derived (`RetypeInv`), an equation that cannot be
applied stays in the list, and a round that applies none ends the pass. So it derives all that can be derived
(`result_types_solution`).
-/

namespace Pnacl

open Lib

/-! ## The equations -/

/-- The result and the operands of an instruction whose type is derived. -/
def PNInstruction.equation : PNInstruction → Option (Equation Nat)
  | .binop resultValueId value0Id value1Id _ _ => some ⟨resultValueId, value0Id, value1Id⟩
  | .vselect resultValueId _ trueValueId falseValueId => some ⟨resultValueId, trueValueId, falseValueId⟩
  | _ => none

def PNFunction.equations (f : PNFunction) : List (Equation Nat) := f.insts.filterMap PNInstruction.equation

/-- The type of a value, if it has one. -/
def PNFunction.typeOf (module : PNModule) (f : PNFunction) (valueId : Nat) : Option Nat :=
  ((module.values ++ f.values)[valueId]?).bind fun v => if v.typeId = PN_INVALID_TYPE_ID then none else some v.typeId

/-- The implicit cast, where it gives a type of the table. -/
def implicitCast (host : PNHost) (module : PNModule) (type0Id type1Id : Nat) : Option Nat :=
  let typeId := pnTypeGetImplicitCastType host module type0Id type1Id
  if typeId < module.types.length then some typeId else none

/-- The equations that a set of equations is. -/
def PNFunction.system (f : PNFunction) : Set (Equation Nat) := {e | e ∈ f.equations}

/-- The type can be derived in finitely many steps from those that are known. -/
abbrev TypeDerives (host : PNHost) (module : PNModule) (f : PNFunction) : Nat → Nat → Prop :=
  Derives (implicitCast host module) (f.typeOf module) f.system

/-- A function as it comes to the pass: the table is one that a type block can fill, ids are in range, and every BINOP and
VSELECT defines a value of its own, without type. -/
structure Typable (module : PNModule) (f : PNFunction) : Prop where
  types : module.types.length < 2 ^ 16
  known : ∀ {v t}, f.typeOf module v = some t → t < module.types.length
  operands : ∀ e ∈ f.equations, e.left < pnFunctionNumValues module f ∧ e.right < pnFunctionNumValues module f
  results : ∀ e ∈ f.equations, module.values.length ≤ e.result ∧ e.result < pnFunctionNumValues module f
  untyped : ∀ e ∈ f.equations, f.typeOf module e.result = none
  distinct : (f.equations.map Equation.result).Nodup

section Equations

variable {host : PNHost} {module : PNModule} {f g : PNFunction} {v t : Nat}

theorem Typable.separate (h : Typable module f) : SeparateResults (f.typeOf module) f.system :=
  ⟨fun he => h.untyped _ he, fun he he' heq => List.inj_on_of_nodup_map h.distinct he he' heq⟩

/-- It is enough that the values have types of the table or none. -/
theorem known_of_values
    (h : ∀ value ∈ module.values ++ f.values, value.typeId = PN_INVALID_TYPE_ID ∨ value.typeId < module.types.length)
    (hv : f.typeOf module v = some t) : t < module.types.length := by
  obtain ⟨value, hvalue, ht⟩ := Option.bind_eq_some_iff.mp hv
  split at ht
  · cases ht
  · rename_i hne
    cases ht
    exact (h value (List.mem_of_getElem? hvalue)).resolve_left hne

theorem implicitCast_eq_some {t0 t1 : Nat} : implicitCast host module t0 t1 = some t ↔
    pnTypeGetImplicitCastType host module t0 t1 = t ∧ t < module.types.length := by
  rw [implicitCast]
  split
  · rename_i h
    rw [Option.some.injEq]
    exact ⟨fun heq => ⟨heq, heq ▸ h⟩, fun heq => heq.1⟩
  · rename_i h
    refine iff_of_false (by simp) ?_
    rintro ⟨rfl, hlt⟩
    exact h hlt

theorem TypeDerives.lt (h : Typable module f) (hd : TypeDerives host module f v t) : t < module.types.length := by
  cases hd with
  | known hv => exact h.known hv
  | step _ _ _ hop => exact (implicitCast_eq_some.mp hop).2

/-- The cast of two types of the table is a `PNTypeId`. -/
theorem cast_lt {t0 t1 n : Nat} (hn : n < 2 ^ 16) (h1 : t1 < n) :
    pnTypeGetImplicitCastType host module t0 t1 < 2 ^ 16 := by
  have hinvalid : PN_INVALID_TYPE_ID < 2 ^ 16 := by decide
  unfold pnTypeGetImplicitCastType
  split
  · omega
  · split
    · split <;> omega
    · split <;> omega
    · exact hinvalid

end Equations

/-! ## One instruction -/

/-- Only types have changed, and they can be derived. -/
structure RetypeInv (host : PNHost) (module : PNModule) (f g : PNFunction) : Prop where
  function : g = { f with values := g.values }
  codes : g.values.map PNValue.code = f.values.map PNValue.code
  sound : Sound (implicitCast host module) (f.typeOf module) f.system (g.typeOf module)

/-- The result has a type. -/
def HasResultType (module : PNModule) (g : PNFunction) (inst : PNInstruction) : Prop :=
  ∀ e, inst.equation = some e → ∃ t, g.typeOf module e.result = some t

/-- An operand has no type. -/
def Blocked (module : PNModule) (g : PNFunction) (inst : PNInstruction) : Prop :=
  ∃ e, inst.equation = some e ∧ (g.typeOf module e.left = none ∨ g.typeOf module e.right = none)

/-- No type is lost. -/
def Grows (module : PNModule) (g g' : PNFunction) : Prop := ∀ v t, g.typeOf module v = some t → g'.typeOf module v = some t

/-- The program exits, and there is a result whose type cannot be derived. -/
def Rejected (host : PNHost) (module : PNModule) (f : PNFunction) {α : Type} (x : Except Stop α) : Prop :=
  (∃ s, x = .error s ∧ s.IsExit) ∧ ∃ e ∈ f.equations, ∀ t, ¬TypeDerives host module f e.result t

section Step

variable {host : PNHost} {module : PNModule} {f g g' g₁ : PNFunction} {inst : PNInstruction} {e : Equation Nat} {v t : Nat}

theorem RetypeInv.start : RetypeInv host module f f := ⟨rfl, rfl, .start⟩

theorem RetypeInv.numValues (h : RetypeInv host module f g) : pnFunctionNumValues module g = pnFunctionNumValues module f := by
  have hlen := congrArg List.length h.codes
  simp only [List.length_map] at hlen
  simp [pnFunctionNumValues, hlen]

theorem RetypeInv.insts (h : RetypeInv host module f g) : g.insts = f.insts := by
  rw [h.function]
  rfl

theorem Grows.refl (g : PNFunction) : Grows module g g := fun _ _ => id

theorem Grows.trans (h : Grows module g g₁) (h' : Grows module g₁ g') : Grows module g g' :=
  fun v t hv => h' v t (h v t hv)

theorem HasResultType.grows (h : HasResultType module g inst) (hg : Grows module g g') : HasResultType module g' inst := by
  intro e he
  obtain ⟨t, ht⟩ := h e he
  exact ⟨t, hg _ _ ht⟩

theorem Rejected.bind {α β : Type} {x : Except Stop α} (h : Rejected host module f x) (k : α → Except Stop β) :
    Rejected host module f (x >>= k) := by
  obtain ⟨⟨s, rfl, hs⟩, he⟩ := h
  exact ⟨⟨s, rfl, hs⟩, he⟩

theorem getValue_of_lt (h : v < pnFunctionNumValues module g) :
    ∃ value, pnFunctionGetValue module g v = .ok value ∧
      g.typeOf module v = if value.typeId = PN_INVALID_TYPE_ID then none else some value.typeId := by
  have hlt : v < (module.values ++ g.values).length := by simpa [pnFunctionNumValues] using h
  refine ⟨(module.values ++ g.values)[v], ?_, ?_⟩
  · rw [pnFunctionGetValue, List.getElem?_eq_getElem hlt]
  · rw [PNFunction.typeOf, List.getElem?_eq_getElem hlt]
    rfl

theorem typeOf_setTypeId (hlow : module.values.length ≤ v) (hlt : v < pnFunctionNumValues module g)
    (ht : t ≠ PN_INVALID_TYPE_ID) :
    (g.setTypeId module v t).typeOf module = Function.update (g.typeOf module) v (some t) := by
  funext w
  rw [PNFunction.setTypeId, if_neg (by omega)]
  by_cases hw : w = v
  · subst hw
    rw [Function.update_self]
    have hlen : w - module.values.length < g.values.length := by
      simp only [pnFunctionNumValues] at hlt
      omega
    simp [PNFunction.typeOf, List.getElem?_append_right hlow, List.getElem?_eq_getElem hlen, ht]
  · rw [Function.update_of_ne hw, PNFunction.typeOf, PNFunction.typeOf]
    congr 1
    by_cases hwm : w < module.values.length
    · rw [List.getElem?_append_left hwm, List.getElem?_append_left hwm]
    · rw [List.getElem?_append_right (by omega), List.getElem?_append_right (by omega), List.getElem?_modify_ne]
      omega

theorem RetypeInv.setTypeId (h : RetypeInv host module f g) (v t : Nat) :
    g.setTypeId module v t = { f with values := (g.setTypeId module v t).values } ∧
      (g.setTypeId module v t).values.map PNValue.code = f.values.map PNValue.code := by
  unfold PNFunction.setTypeId
  split
  · exact ⟨h.function, h.codes⟩
  · refine ⟨?_, ?_⟩
    · rw [h.function]
    · rw [← h.codes]
      apply List.ext_getElem?
      intro i
      simp only [List.getElem?_map, List.getElem?_modify]
      cases g.values[i]? with
      | none => rfl
      | some value => by_cases hi : v - module.values.length = i <;> simp [hi]

/-- An equation is applied, or it has to wait, or it cannot be satisfied. -/
theorem assign_spec (h : Typable module f) (hi : RetypeInv host module f g) (he : e ∈ f.equations) :
    (∃ g', pnFunctionAssignResultValueType host module g e.result e.left e.right = .ok (true, g') ∧
      RetypeInv host module f g' ∧ Grows module g g' ∧ ∃ t, g'.typeOf module e.result = some t) ∨
    (pnFunctionAssignResultValueType host module g e.result e.left e.right = .ok (false, g) ∧
      (g.typeOf module e.left = none ∨ g.typeOf module e.right = none)) ∨
    Rejected host module f (pnFunctionAssignResultValueType host module g e.result e.left e.right) := by
  obtain ⟨hlow, hhigh⟩ := h.results e he
  obtain ⟨hleft, hright⟩ := h.operands e he
  rw [← hi.numValues] at hhigh hleft hright
  obtain ⟨result, hr, -⟩ := getValue_of_lt hhigh
  obtain ⟨value0, h0, ht0⟩ := getValue_of_lt hleft
  obtain ⟨value1, h1, ht1⟩ := getValue_of_lt hright
  rw [pnFunctionAssignResultValueType, hr, h0, h1]
  simp only [ok_bind]
  by_cases hnone : value0.typeId = PN_INVALID_TYPE_ID ∨ value1.typeId = PN_INVALID_TYPE_ID
  · right; left
    rw [if_pos hnone]
    refine ⟨rfl, ?_⟩
    rw [ht0, ht1]
    exact hnone.imp (if_pos ·) (if_pos ·)
  obtain ⟨hv0, hv1⟩ := not_or.mp hnone
  rw [if_neg hv0] at ht0
  rw [if_neg hv1] at ht1
  have hlt1 := TypeDerives.lt h (hi.sound.derives ht1)
  have hcast : toTypeId (pnTypeGetImplicitCastType host module value0.typeId value1.typeId) =
      pnTypeGetImplicitCastType host module value0.typeId value1.typeId := Nat.mod_eq_of_lt (cast_lt h.types hlt1)
  rw [if_neg hnone, hcast, pnTypeIdCheck, hcast]
  by_cases hlt : pnTypeGetImplicitCastType host module value0.typeId value1.typeId < module.types.length
  · left
    rw [pnCheck_bind hlt]
    have hop := implicitCast_eq_some.mpr ⟨rfl, hlt⟩
    have hne : pnTypeGetImplicitCastType host module value0.typeId value1.typeId ≠ PN_INVALID_TYPE_ID := by
      have := h.types
      simp only [PN_INVALID_TYPE_ID]
      omega
    have hset := typeOf_setTypeId hlow hhigh hne
    have hsound := hi.sound.step h.separate he ht0 ht1 hop
    rw [← hset] at hsound
    obtain ⟨hfunction, hcodes⟩ := hi.setTypeId e.result (pnTypeGetImplicitCastType host module value0.typeId value1.typeId)
    refine ⟨_, rfl, ⟨hfunction, hcodes, hsound⟩, ?_, _, by rw [hset, Function.update_self]⟩
    intro v t hv
    rw [hset]
    by_cases hve : v = e.result
    · subst hve
      rw [Function.update_self]
      exact congrArg some ((hi.sound.derives hv).unique h.separate (hsound.derives (by rw [hset, Function.update_self])))
    · rwa [Function.update_of_ne hve]
  · right; right
    rw [pnCheck_bind_neg hlt]
    refine ⟨⟨_, rfl, trivial⟩, e, he, fun t => hi.sound.stuck h.separate he ht0 ht1 (if_neg hlt)⟩

/-- One instruction: its result gets a type, or it is blocked and nothing has changed. -/
theorem calculate_spec (h : Typable module f) (hi : RetypeInv host module f g) (hmem : inst ∈ f.insts) :
    (∃ g', pnInstructionCalculateResultValueType host module g inst = .ok (true, g') ∧
      RetypeInv host module f g' ∧ Grows module g g' ∧ HasResultType module g' inst) ∨
    (pnInstructionCalculateResultValueType host module g inst = .ok (false, g) ∧ Blocked module g inst) ∨
    Rejected host module f (pnInstructionCalculateResultValueType host module g inst) := by
  have hequation : ∀ e, inst.equation = some e →
      pnInstructionCalculateResultValueType host module g inst =
        pnFunctionAssignResultValueType host module g e.result e.left e.right := by
    intro e he
    cases inst <;> cases he <;> rfl
  cases he : inst.equation with
  | none =>
    left
    refine ⟨g, ?_, hi, .refl g, by simp [HasResultType, he]⟩
    cases inst <;> first | rfl | cases he
  | some e =>
    rw [hequation e he]
    rcases assign_spec h hi (List.mem_filterMap.mpr ⟨inst, hmem, he⟩) with ⟨g', hok, hi', hg, ht⟩ | ⟨hok, hnone⟩ | hrej
    · left
      refine ⟨g', hok, hi', hg, ?_⟩
      intro e' he'
      cases he.symm.trans he'
      exact ht
    · exact .inr (.inl ⟨hok, e, he, hnone⟩)
    · exact .inr (.inr hrej)

end Step

/-! ## The loops -/

section Loops

variable {host : PNHost} {module : PNModule} {f : PNFunction}

/-- The first loop: an instruction whose result has no type is in the list. -/
theorem resolveTypes_typed (h : Typable module f) : ∀ {insts : List PNInstruction} {g : PNFunction},
    RetypeInv host module f g → (∀ inst ∈ insts, inst ∈ f.insts) →
    (∃ invalid g', resolveTypes host module g insts = .ok (invalid, g') ∧ RetypeInv host module f g' ∧ Grows module g g' ∧
      (∀ inst ∈ invalid, inst ∈ insts) ∧ ∀ inst ∈ insts, inst ∈ invalid ∨ HasResultType module g' inst) ∨
    Rejected host module f (resolveTypes host module g insts)
  | [], g, hi, _ => .inl ⟨[], g, rfl, hi, .refl g, by simp, by simp⟩
  | inst :: rest, g, hi, hmem => by
    obtain ⟨hinst, hrest⟩ := List.forall_mem_cons.mp hmem
    rcases calculate_spec h hi hinst with ⟨g₁, hok, hi₁, hg₁, ht⟩ | ⟨hok, -⟩ | hrej
    · rcases resolveTypes_typed h hi₁ hrest with ⟨invalid, g', hok', hi', hg', hsub, hall⟩ | hrej
      · left
        refine ⟨invalid, g', ?_, hi', hg₁.trans hg', ?_, ?_⟩
        · rw [resolveTypes, hok, ok_bind]
          dsimp only
          rw [hok', ok_bind]
          rfl
        · intro i hi
          exact List.mem_cons_of_mem _ (hsub i hi)
        · exact List.forall_mem_cons.mpr ⟨.inr (ht.grows hg'), hall⟩
      · right
        rw [resolveTypes, hok, ok_bind]
        exact hrej.bind _
    · rcases resolveTypes_typed h hi hrest with ⟨invalid, g', hok', hi', hg', hsub, hall⟩ | hrej
      · left
        refine ⟨inst :: invalid, g', ?_, hi', hg', ?_, ?_⟩
        · rw [resolveTypes, hok, ok_bind]
          dsimp only
          rw [hok', ok_bind]
          rfl
        · exact List.cons_subset_cons _ hsub
        · refine List.forall_mem_cons.mpr ⟨.inl (List.mem_cons_self ..), ?_⟩
          intro i hi
          exact (hall i hi).imp_left (List.mem_cons_of_mem _)
      · right
        rw [resolveTypes, hok, ok_bind]
        exact hrej.bind _
    · exact .inr (hrej.bind _)

theorem length_removeAt {l : List PNInstruction} {n : Nat} : (removeAt l n).length = l.length - 1 := by
  unfold removeAt
  cases hlast : l.getLast? with
  | none =>
    rw [List.getLast?_eq_none_iff.mp hlast]
    rfl
  | some last => simp

theorem mem_of_mem_removeAt {l : List PNInstruction} {n : Nat} {inst : PNInstruction} (h : inst ∈ removeAt l n) : inst ∈ l := by
  unfold removeAt at h
  cases hlast : l.getLast? with
  | none =>
    rw [hlast] at h
    cases h
  | some last =>
    rw [hlast] at h
    rcases List.mem_or_eq_of_mem_set (List.dropLast_subset _ h) with hl | rfl
    · exact hl
    · exact List.mem_of_getLast? hlast

/-- A round: it takes instructions from the list, or every one of them is blocked and nothing has changed. The elements before
`n` have been tried already. -/
theorem retryInvalid_typed (h : Typable module f) : ∀ {left n : Nat} {invalid : List PNInstruction} {g : PNFunction},
    RetypeInv host module f g → (∀ inst ∈ invalid, inst ∈ f.insts) → left + n = invalid.length →
    (∃ invalid' g', retryInvalid host module left n invalid g = .ok (invalid', g') ∧ RetypeInv host module f g' ∧
      Grows module g g' ∧ (∀ inst ∈ invalid', inst ∈ invalid) ∧ (∀ inst ∈ invalid, inst ∈ invalid' ∨ HasResultType module g' inst) ∧
      (invalid'.length < invalid.length ∨
        invalid' = invalid ∧ g' = g ∧ ∀ inst ∈ invalid.drop n, Blocked module g inst)) ∨
    Rejected host module f (retryInvalid host module left n invalid g)
  | 0, n, invalid, g, hi, _, hlen => by
    left
    refine ⟨invalid, g, rfl, hi, .refl g, fun _ => id, fun _ => .inl, .inr ⟨rfl, rfl, ?_⟩⟩
    rw [List.drop_eq_nil_of_le (by omega)]
    simp
  | left + 1, n, invalid, g, hi, hmem, hlen => by
    have hn : n < invalid.length := by omega
    have hget := List.getElem?_eq_getElem hn
    have hx : invalid[n] ∈ invalid := List.getElem_mem hn
    rw [retryInvalid, hget]
    dsimp only
    rcases calculate_spec h hi (hmem _ hx) with ⟨g₁, hok, hi₁, hg₁, ht⟩ | ⟨hok, hblocked⟩ | hrej
    · have hlen' := @length_removeAt invalid n
      rw [hok, ok_bind]
      dsimp only
      rw [if_pos rfl]
      rcases retryInvalid_typed h hi₁ (fun inst hin => hmem inst (mem_of_mem_removeAt hin))
          (show left + n = (removeAt invalid n).length by omega) with
        ⟨invalid', g', hok', hi', hg', hsub, hall, hshort⟩ | hrej
      · left
        refine ⟨invalid', g', hok', hi', hg₁.trans hg', fun inst hin => mem_of_mem_removeAt (hsub inst hin), ?_, .inl ?_⟩
        · intro inst hin
          rcases mem_removeAt hget hin with rfl | hin
          · exact .inr (ht.grows hg')
          · exact hall inst hin
        · rcases hshort with hshort | ⟨rfl, -⟩ <;> omega
      · exact .inr hrej
    · rw [hok, ok_bind]
      dsimp only
      rw [if_neg Bool.false_ne_true]
      rcases retryInvalid_typed h hi hmem (show left + (n + 1) = invalid.length by omega) with
        ⟨invalid', g', hok', hi', hg', hsub, hall, hshort⟩ | hrej
      · left
        refine ⟨invalid', g', hok', hi', hg', hsub, hall, hshort.imp_right ?_⟩
        rintro ⟨rfl, rfl, hrest⟩
        refine ⟨rfl, rfl, ?_⟩
        rw [List.drop_eq_getElem_cons hn]
        exact List.forall_mem_cons.mpr ⟨hblocked, hrest⟩
      · exact .inr hrej
    · exact .inr (hrej.bind _)

/-- The state that a round leaves in which every instruction was blocked holds all types that can be derived. -/
theorem RetypeInv.blocked_complete {invalid : List PNInstruction} {g : PNFunction} (h : Typable module f)
    (hi : RetypeInv host module f g) (htyped : ∀ inst ∈ f.insts, inst ∈ invalid ∨ HasResultType module g inst)
    (hblocked : ∀ inst ∈ invalid, Blocked module g inst) {v t : Nat} (hd : TypeDerives host module f v t) :
    g.typeOf module v = some t := by
  apply hi.sound.complete ?_ hd
  intro e he a b t ha hb hop
  obtain ⟨inst, hinst, heq⟩ := List.mem_filterMap.mp he
  rcases htyped inst hinst with hin | hty
  · obtain ⟨e', he', hnone⟩ := hblocked inst hin
    cases heq.symm.trans he'
    rw [ha, hb] at hnone
    simp at hnone
  · obtain ⟨u, hu⟩ := hty e heq
    rw [hu, Derives.unique h.separate (.step he (hi.sound.derives ha) (hi.sound.derives hb) hop) (hi.sound.derives hu)]

/-- So the results of these instructions have no type that can be derived. -/
theorem Blocked.not_derives {invalid : List PNInstruction} {g : PNFunction} {inst : PNInstruction} (h : Typable module f)
    (hi : RetypeInv host module f g) (hmem : ∀ inst ∈ invalid, inst ∈ f.insts)
    (htyped : ∀ inst ∈ f.insts, inst ∈ invalid ∨ HasResultType module g inst)
    (hblocked : ∀ inst ∈ invalid, Blocked module g inst) (hin : inst ∈ invalid) :
    ∃ e ∈ f.equations, ∀ t, ¬TypeDerives host module f e.result t := by
  obtain ⟨e, he, hnone⟩ := hblocked inst hin
  have hmem : e ∈ f.equations := List.mem_filterMap.mpr ⟨inst, hmem inst hin, he⟩
  refine ⟨e, hmem, fun t hd => ?_⟩
  obtain ⟨a, b, ha, hb, -⟩ := hd.result h.separate hmem
  rw [hi.blocked_complete h htyped hblocked ha, hi.blocked_complete h htyped hblocked hb] at hnone
  simp at hnone

/-- The rounds end: every round but the last makes the list shorter. -/
theorem retryRounds_typed (h : Typable module f) : ∀ {fuel : Nat} {invalid : List PNInstruction} {g : PNFunction},
    invalid.length < fuel → RetypeInv host module f g → (∀ inst ∈ invalid, inst ∈ f.insts) →
    (∀ inst ∈ f.insts, inst ∈ invalid ∨ HasResultType module g inst) →
    (∃ g', retryRounds host module fuel invalid g = .ok g' ∧ RetypeInv host module f g' ∧
      ∀ inst ∈ f.insts, HasResultType module g' inst) ∨
    Rejected host module f (retryRounds host module fuel invalid g)
  | 0, _, _, hfuel, _, _, _ => by cases hfuel
  | fuel + 1, invalid, g, hfuel, hi, hmem, htyped => by
    rw [retryRounds]
    rcases retryInvalid_typed h hi hmem (show invalid.length + 0 = invalid.length from rfl) with
      ⟨invalid', g', hok, hi', hg', hsub, hall, hshort⟩ | hrej
    · rw [hok, ok_bind]
      dsimp only
      have htyped' : ∀ inst ∈ f.insts, inst ∈ invalid' ∨ HasResultType module g' inst := by
        intro inst hin
        rcases htyped inst hin with hin | ht
        · exact hall inst hin
        · exact .inr (ht.grows hg')
      rcases hshort with hshort | ⟨rfl, rfl, hblocked⟩
      · rw [if_pos (Nat.ne_of_lt hshort)]
        exact retryRounds_typed h (by omega) hi' (fun inst hin => hmem inst (hsub inst hin)) htyped'
      · rw [if_neg (not_not.mpr rfl)]
        cases invalid' with
        | nil =>
          left
          refine ⟨g', rfl, hi', ?_⟩
          intro inst hin
          exact (htyped' inst hin).resolve_left (List.not_mem_nil)
        | cons inst rest =>
          right
          have hpos : 0 < (inst :: rest).length := Nat.succ_pos _
          rw [if_pos hpos]
          exact ⟨⟨_, rfl, trivial⟩, Blocked.not_derives h hi' hmem htyped' hblocked (List.mem_cons_self ..)⟩
    · exact .inr (hrej.bind _)

/-- **The pass gives every result a type, or it exits and some result has none that can be derived.** -/
theorem calculateResultValueTypes_typed (h : Typable module f) :
    (∃ g, pnFunctionCalculateResultValueTypes host module f = .ok g ∧ RetypeInv host module f g ∧
      ∀ inst ∈ f.insts, HasResultType module g inst) ∨
    Rejected host module f (pnFunctionCalculateResultValueTypes host module f) := by
  rw [pnFunctionCalculateResultValueTypes]
  rcases resolveTypes_typed h .start (fun _ => id) with ⟨invalid, g, hok, hi, -, hsub, hall⟩ | hrej
  · rw [hok, ok_bind]
    dsimp only
    cases invalid with
    | nil =>
      left
      refine ⟨g, rfl, hi, ?_⟩
      intro inst hin
      exact (hall inst hin).resolve_left (List.not_mem_nil)
    | cons inst rest =>
      have hpos : 0 < (inst :: rest).length := Nat.succ_pos _
      rw [if_pos hpos]
      exact retryRounds_typed h (Nat.lt_succ_self _) hi hsub hall
  · exact .inr (hrej.bind _)

end Loops

/-! ## Other orders -/

/-- The instructions are visited one after the other, whether or not the types of their operands are known. -/
def visitAll (host : PNHost) (module : PNModule) : List PNInstruction → PNFunction → Except Stop PNFunction
  | [], f => .ok f
  | inst :: rest, f => do
    let (_, f) ← pnInstructionCalculateResultValueType host module f inst
    visitAll host module rest f

section Visits

variable {host : PNHost} {module : PNModule} {f : PNFunction}

theorem visitAll_inv (h : Typable module f) (hall : ∀ e ∈ f.equations, ∃ t, TypeDerives host module f e.result t) :
    ∀ {visits : List PNInstruction} {g : PNFunction}, RetypeInv host module f g → (∀ inst ∈ visits, inst ∈ f.insts) →
    ∃ g', visitAll host module visits g = .ok g' ∧ RetypeInv host module f g'
  | [], g, hi, _ => ⟨g, rfl, hi⟩
  | inst :: rest, g, hi, hmem => by
    obtain ⟨hinst, hrest⟩ := List.forall_mem_cons.mp hmem
    rw [visitAll]
    rcases calculate_spec h hi hinst with ⟨g₁, hok, hi₁, -⟩ | ⟨hok, -⟩ | ⟨-, e, he, hno⟩
    · rw [hok, ok_bind]
      exact visitAll_inv h hall hi₁ hrest
    · rw [hok, ok_bind]
      exact visitAll_inv h hall hi hrest
    · obtain ⟨t, ht⟩ := hall e he
      exact absurd ht (hno t)

theorem hasResultType_equations {g : PNFunction} (h : ∀ inst ∈ f.insts, HasResultType module g inst) :
    ∀ e ∈ f.system, ∃ t, g.typeOf module e.result = some t := by
  intro e he
  obtain ⟨inst, hin, heq⟩ := List.mem_filterMap.mp he
  exact h inst hin e heq

theorem PNValue.eq_of_typeId {v v' : PNValue} (hcode : v'.code = v.code)
    (htype : (if v'.typeId = PN_INVALID_TYPE_ID then none else some v'.typeId) =
      if v.typeId = PN_INVALID_TYPE_ID then none else some v.typeId) : v' = v := by
  have htypeId : v'.typeId = v.typeId := by
    split at htype
    · split at htype
      · rw [‹v'.typeId = _›, ‹v.typeId = _›]
      · cases htype
    · split at htype
      · cases htype
      · exact Option.some.inj htype
  cases v
  cases v'
  cases hcode
  cases htypeId
  rfl

/-- A function is determined by the types that its values have. -/
theorem RetypeInv.eq_of_typeOf {g g' : PNFunction} (h : RetypeInv host module f g) (h' : RetypeInv host module f g')
    (heq : g'.typeOf module = g.typeOf module) : g' = g := by
  have hvalues : g'.values = g.values := by
    apply List.ext_getElem?
    intro i
    have hcode : (g'.values.map PNValue.code)[i]? = (g.values.map PNValue.code)[i]? := by rw [h'.codes, h.codes]
    have htype := congrFun heq (module.values.length + i)
    simp only [PNFunction.typeOf, List.getElem?_append_right (Nat.le_add_right _ _), Nat.add_sub_cancel_left] at htype
    rw [List.getElem?_map, List.getElem?_map] at hcode
    generalize g'.values[i]? = x at hcode htype
    generalize g.values[i]? = y at hcode htype
    cases x with
    | none => cases y with
      | none => rfl
      | some v => cases hcode
    | some v' => cases y with
      | none => cases hcode
      | some v => exact congrArg some (PNValue.eq_of_typeId (Option.some.inj hcode) htype)
  rw [h.function, h'.function, hvalues]

end Visits

/-- **The types of results are the unique solution of the equations, and they are found whenever they can be derived.** -/
theorem result_types_solution (host : PNHost) (module : PNModule) (f : PNFunction) (h : Typable module f) :
    ((∃ g, pnFunctionCalculateResultValueTypes host module f = .ok g) ↔
        ∀ e ∈ f.equations, ∃ t, TypeDerives host module f e.result t) ∧
      ((∃ s, pnFunctionCalculateResultValueTypes host module f = .error s ∧ s.IsExit) ↔
        ∃ e ∈ f.equations, ∀ t, ¬TypeDerives host module f e.result t) ∧
      ∀ g, pnFunctionCalculateResultValueTypes host module f = .ok g →
        (∀ e ∈ f.equations, ∃ t0 t1, g.typeOf module e.left = some t0 ∧ g.typeOf module e.right = some t1 ∧
          g.typeOf module e.result = some (pnTypeGetImplicitCastType host module t0 t1)) ∧
        (∀ v t, f.typeOf module v = some t → g.typeOf module v = some t) ∧
        (∀ state, Solves (implicitCast host module) (f.typeOf module) f.system state →
          ∀ v t, g.typeOf module v = some t → state v = some t) ∧
        ∀ visits, (∀ inst ∈ visits, inst ∈ f.insts) → ∃ g', visitAll host module visits f = .ok g' ∧
          ((∀ inst ∈ f.insts, HasResultType module g' inst) → g' = g) := by
  rcases @calculateResultValueTypes_typed host module f h with ⟨g, hok, hi, htyped⟩ | ⟨⟨s, hs, hexit⟩, e, he, hno⟩
  · have hall := hasResultType_equations htyped
    have hderives : ∀ e ∈ f.equations, ∃ t, TypeDerives host module f e.result t := by
      intro e he
      obtain ⟨t, ht⟩ := hall e he
      exact ⟨t, hi.sound.derives ht⟩
    rw [hok]
    refine ⟨iff_of_true ⟨g, rfl⟩ hderives, iff_of_false ?_ ?_, ?_⟩
    · rintro ⟨s, hs, -⟩
      cases hs
    · rintro ⟨e, he, hno⟩
      obtain ⟨t, ht⟩ := hderives e he
      exact hno t ht
    · rintro g' hg'
      cases hg'
      have hsolves := hi.sound.solves h.separate hall
      refine ⟨?_, fun v t => hi.sound.keeps, fun state hstate v t hv => (hi.sound.derives hv).solves hstate, ?_⟩
      · intro e he
        obtain ⟨t0, t1, t, h0, h1, hop, ht⟩ := hsolves.equation he
        rw [← (implicitCast_eq_some.mp hop).1] at ht
        exact ⟨t0, t1, h0, h1, ht⟩
      · intro visits hvisits
        obtain ⟨g', hok', hi'⟩ := visitAll_inv h hderives .start hvisits
        refine ⟨g', hok', fun htyped' => hi.eq_of_typeOf hi' ?_⟩
        exact hi.sound.unique hi'.sound h.separate hall (hasResultType_equations htyped')
  · rw [hs]
    refine ⟨iff_of_false ?_ ?_, iff_of_true ⟨s, rfl, hexit⟩ ⟨e, he, hno⟩, ?_⟩
    · rintro ⟨g, hg⟩
      cases hg
    · intro hall
      obtain ⟨t, ht⟩ := hall e he
      exact hno t ht
    · intro g hg
      cases hg

/-- A function of one block. -/
def oneBlock (values : List PNValue) (insts : List PNInstruction) : PNFunction where
  name := none
  typeId := 0
  intrinsicId := .null
  numArgs := 0
  callingConvention := 0
  isProto := false
  linkage := 0
  constants := []
  bbs := [{ instructions := insts }]
  values := values
  numInstructions := insts.length
  instructions := none

def demoWords : PNModule := { pnModuleInit ⟨fun _ => 0, 2 ^ 16⟩ with types := [.integer 32 .int32] }

/-- The first instruction uses the result of the second. -/
def forwardUse : PNFunction :=
  oneBlock [⟨.localVar, 0⟩, ⟨.localVar, PN_INVALID_TYPE_ID⟩, ⟨.localVar, PN_INVALID_TYPE_ID⟩]
    [.binop 1 2 0 0 0, .vselect 2 0 0 0]

theorem result_types_solution_forward :
    ∃ g, pnFunctionCalculateResultValueTypes zeroHost demoWords forwardUse = .ok g := by
  have h : Typable demoWords forwardUse := by
    refine ⟨by decide, known_of_values ?_, by decide, by decide, by decide, by decide⟩
    decide
  have hknown : TypeDerives zeroHost demoWords forwardUse 0 0 := .known rfl
  have hsecond : TypeDerives zeroHost demoWords forwardUse 2 0 :=
    .step (e := ⟨2, 0, 0⟩) (List.mem_cons_of_mem _ (List.mem_cons_self ..)) hknown hknown (by decide)
  have hfirst : TypeDerives zeroHost demoWords forwardUse 1 0 :=
    .step (e := ⟨1, 2, 0⟩) (List.mem_cons_self ..) hsecond hknown (by decide)
  apply (result_types_solution zeroHost demoWords forwardUse h).1.mpr
  intro e he
  rcases List.mem_cons.mp he with rfl | he
  · exact ⟨0, hfirst⟩
  · cases List.mem_singleton.mp he
    exact ⟨0, hsecond⟩

end Pnacl
