import Pnacl.Module

/-!
# Types of results

`pn_calculate_result_value_types.h`: BINOP and VSELECT records do not name the type of their result, so it is derived
from the operands once all values of the function are known. Instructions whose operands have no type yet are tried
again until a round resolves none of them.
-/

namespace Pnacl

open Lib

/-- `pn_type_get_implicit_cast_type`. -/
def pnTypeGetImplicitCastType (host : PNHost) (module : PNModule) (type0Id type1Id : Nat) : Nat :=
  if type0Id = type1Id then type0Id
  else match module.type host type0Id, module.type host type1Id with
    | .function _ _ _, .integer width _ => if width = 32 then type1Id else PN_INVALID_TYPE_ID
    | .integer width _, .function _ _ _ => if width = 32 then type1Id else PN_INVALID_TYPE_ID
    | _, _ => PN_INVALID_TYPE_ID

/-- `value->type_id = type_id` for the result of an instruction, which is a value of the function. -/
def PNFunction.setTypeId (module : PNModule) (function : PNFunction) (valueId typeId : Nat) : PNFunction :=
  if valueId < module.values.length then function
  else { function with
    values := function.values.modify (valueId - module.values.length) fun v => { v with typeId := typeId } }

/-- `pn_function_assign_result_value_type`; `false` if an operand has no type yet. -/
def pnFunctionAssignResultValueType (host : PNHost) (module : PNModule) (function : PNFunction)
    (resultValueId value0Id value1Id : Nat) : Except Stop (Bool × PNFunction) := do
  let _ ← pnFunctionGetValue module function resultValueId
  let value0 ← pnFunctionGetValue module function value0Id
  let value1 ← pnFunctionGetValue module function value1Id
  if value0.typeId = PN_INVALID_TYPE_ID ∨ value1.typeId = PN_INVALID_TYPE_ID then .ok (false, function)
  else do
    -- a `PNTypeId`
    let typeId := toTypeId (pnTypeGetImplicitCastType host module value0.typeId value1.typeId)
    pnTypeIdCheck module typeId
    .ok (true, function.setTypeId module resultValueId typeId)

/-- `pn_instruction_calculate_result_value_type`. -/
def pnInstructionCalculateResultValueType (host : PNHost) (module : PNModule) (function : PNFunction) :
    PNInstruction → Except Stop (Bool × PNFunction)
  | .binop resultValueId value0Id value1Id _ _ =>
    pnFunctionAssignResultValueType host module function resultValueId value0Id value1Id
  | .vselect resultValueId _ trueValueId falseValueId =>
    pnFunctionAssignResultValueType host module function resultValueId trueValueId falseValueId
  | _ => .ok (true, function)

/-- The first loop, over all instructions: those whose types are invalid are tried again later. -/
def resolveTypes (host : PNHost) (module : PNModule) (function : PNFunction) :
    List PNInstruction → Except Stop (List PNInstruction × PNFunction)
  | [] => .ok ([], function)
  | inst :: rest => do
    let (resolved, function) ← pnInstructionCalculateResultValueType host module function inst
    let (invalid, function) ← resolveTypes host module function rest
    .ok (if resolved then invalid else inst :: invalid, function)

/-- `invalid[n] = invalid[--num_invalid]`. -/
def removeAt (invalid : List PNInstruction) (n : Nat) : List PNInstruction :=
  match invalid.getLast? with
  | some last => (invalid.set n last).dropLast
  | none => []

/-- The `for` loop over `invalid` from `n` on; the first argument is the number of elements that are left. -/
def retryInvalid (host : PNHost) (module : PNModule) :
    Nat → Nat → List PNInstruction → PNFunction → Except Stop (List PNInstruction × PNFunction)
  | 0, _, invalid, function => .ok (invalid, function)
  | left + 1, n, invalid, function =>
    match invalid[n]? with
    | none => .ok (invalid, function)
    | some inst => do
      let (resolved, function) ← pnInstructionCalculateResultValueType host module function inst
      if resolved then retryInvalid host module left n (removeAt invalid n) function
      else retryInvalid host module left (n + 1) invalid function

/-- The `while` loop; every round but the last resolves an instruction. -/
def retryRounds (host : PNHost) (module : PNModule) : Nat → List PNInstruction → PNFunction → Except Stop PNFunction
  | 0, _, _ => .error .fuel
  | fuel + 1, invalid, function => do
    let (left, function) ← retryInvalid host module invalid.length 0 invalid function
    if left.length ≠ invalid.length then retryRounds host module fuel left function
    else if 0 < left.length then pnFatal "Unable to resolve types for %d value(s).\n" [left.length]
    else .ok function

/-- `pn_function_calculate_result_value_types`. -/
def pnFunctionCalculateResultValueTypes (host : PNHost) (module : PNModule) (function : PNFunction) :
    Except Stop PNFunction := do
  let (invalid, function) ← resolveTypes host module function function.insts
  if 0 < invalid.length then retryRounds host module (invalid.length + 1) invalid function else .ok function

/-! ## What the pass does

It only changes types of values, to types of the table, and it returns only if every BINOP and VSELECT has got one.
-/

/-- The result of an instruction whose type is derived. -/
def PNInstruction.derivedResult : PNInstruction → Option Nat
  | .binop resultValueId _ _ _ _ => some resultValueId
  | .vselect resultValueId _ _ _ => some resultValueId
  | _ => none

/-- Only types of values have changed, to types below `n`. -/
structure Retyped (n : Nat) (f f' : PNFunction) : Prop where
  function : f' = { f with values := f'.values }
  length : f'.values.length = f.values.length
  typeId : ∀ {i : Nat} {v' : PNValue}, f'.values[i]? = some v' →
    v'.typeId < n ∨ ∃ v : PNValue, f.values[i]? = some v ∧ v'.typeId = v.typeId

/-- The result of the instruction has a type of the table. -/
def Resolved (module : PNModule) (f : PNFunction) (inst : PNInstruction) : Prop :=
  ∀ i, inst.derivedResult = some (module.values.length + i) →
    ∃ v : PNValue, f.values[i]? = some v ∧ v.typeId < module.types.length

section Pass

variable {host : PNHost} {module : PNModule} {f f' f₁ : PNFunction} {inst : PNInstruction}

theorem Retyped.refl (n : Nat) (f : PNFunction) : Retyped n f f := ⟨rfl, rfl, fun h => .inr ⟨_, h, rfl⟩⟩

theorem Retyped.trans {n : Nat} (h₁ : Retyped n f f₁) (h₂ : Retyped n f₁ f') : Retyped n f f' := by
  refine ⟨?_, h₂.length.trans h₁.length, ?_⟩
  · rw [h₂.function, h₁.function]
  · intro i v' hv'
    rcases h₂.typeId hv' with h | ⟨v, hv, heq⟩
    · exact .inl h
    · rw [heq]
      exact h₁.typeId hv

/-- What has a type keeps one. -/
theorem Resolved.retyped (hr : Resolved module f inst) (h : Retyped module.types.length f f') : Resolved module f' inst := by
  intro i hi
  obtain ⟨v, hv, hlt⟩ := hr i hi
  have hlen : i < f'.values.length := by
    rw [h.length]
    exact (List.getElem?_eq_some_iff.mp hv).1
  refine ⟨_, List.getElem?_eq_getElem hlen, ?_⟩
  rcases h.typeId (List.getElem?_eq_getElem hlen) with h' | ⟨w, hw, heq⟩
  · exact h'
  · rw [hv] at hw
    cases hw
    rwa [heq]

theorem pnFunctionGetValue_mem {valueId : Nat} {v : PNValue} (h : pnFunctionGetValue module f valueId = .ok v) :
    (module.values ++ f.values)[valueId]? = some v := by
  unfold pnFunctionGetValue at h
  split at h
  · cases h
    assumption
  · cases h

theorem setTypeId_retyped {n valueId typeId : Nat} (ht : typeId < n) :
    Retyped n f (f.setTypeId module valueId typeId) := by
  unfold PNFunction.setTypeId
  split
  · exact .refl n f
  · refine ⟨rfl, List.length_modify _ _ _, ?_⟩
    intro i v' hv'
    rw [List.getElem?_modify] at hv'
    obtain ⟨v, hv, rfl⟩ := Option.map_eq_some_iff.mp hv'
    split
    · exact .inl ht
    · exact .inr ⟨v, hv, rfl⟩

theorem assignResultValueType_spec {r v0 v1 : Nat} {resolved : Bool}
    (h : pnFunctionAssignResultValueType host module f r v0 v1 = .ok (resolved, f')) :
    Retyped module.types.length f f' ∧ (resolved = true → ∀ i, r = module.values.length + i →
      ∃ v : PNValue, f'.values[i]? = some v ∧ v.typeId < module.types.length) := by
  obtain ⟨result, hr, h⟩ := bind_eq_ok.mp h
  obtain ⟨value0, _, h⟩ := bind_eq_ok.mp h
  obtain ⟨value1, _, h⟩ := bind_eq_ok.mp h
  dsimp only at h
  split at h
  · cases h
    exact ⟨.refl _ _, by simp⟩
  · obtain ⟨hlt, h⟩ := pnCheck_bind_eq_ok.mp h
    cases h
    rw [toTypeId, toTypeId, Nat.mod_mod] at hlt
    refine ⟨setTypeId_retyped hlt, ?_⟩
    rintro - i rfl
    have hi := pnFunctionGetValue_mem hr
    rw [List.getElem?_append_right (Nat.le_add_right _ _), Nat.add_sub_cancel_left] at hi
    rw [PNFunction.setTypeId, if_neg (by omega), Nat.add_sub_cancel_left]
    exact ⟨_, (List.getElem?_modify_eq _ _ _).trans (congrArg _ hi), hlt⟩

/-- One instruction: it is resolved, or nothing has changed. -/
theorem calculateResultValueType_spec {resolved : Bool}
    (h : pnInstructionCalculateResultValueType host module f inst = .ok (resolved, f')) :
    Retyped module.types.length f f' ∧ (resolved = true → Resolved module f' inst) := by
  unfold pnInstructionCalculateResultValueType at h
  split at h
  · obtain ⟨hre, hv⟩ := assignResultValueType_spec h
    refine ⟨hre, fun hr i hi => hv hr i ?_⟩
    simpa [PNInstruction.derivedResult] using hi
  · obtain ⟨hre, hv⟩ := assignResultValueType_spec h
    refine ⟨hre, fun hr i hi => hv hr i ?_⟩
    simpa [PNInstruction.derivedResult] using hi
  · next hb hv =>
    cases h
    refine ⟨.refl _ _, fun _ i hi => ?_⟩
    unfold PNInstruction.derivedResult at hi
    split at hi
    · exact absurd rfl (hb _ _ _ _ _)
    · exact absurd rfl (hv _ _ _ _)
    · cases hi

/-- The first loop: what is not resolved is in the list of invalid instructions. -/
theorem resolveTypes_spec : ∀ {insts invalid : List PNInstruction} {f f' : PNFunction},
    resolveTypes host module f insts = .ok (invalid, f') →
    Retyped module.types.length f f' ∧ ∀ inst ∈ insts, inst ∈ invalid ∨ Resolved module f' inst
  | [], invalid, f, f', h => by
    cases h
    exact ⟨.refl _ _, by simp⟩
  | inst :: rest, invalid, f, f', h => by
    obtain ⟨⟨resolved, f₁⟩, h₁, h⟩ := bind_eq_ok.mp h
    obtain ⟨⟨invalid₁, f₂⟩, h₂, h⟩ := bind_eq_ok.mp h
    cases h
    obtain ⟨hre₁, hr₁⟩ := calculateResultValueType_spec h₁
    obtain ⟨hre₂, hr₂⟩ := resolveTypes_spec h₂
    refine ⟨hre₁.trans hre₂, ?_⟩
    intro i hi
    rcases List.mem_cons.mp hi with rfl | hi
    · cases resolved with
      | true => exact .inr ((hr₁ rfl).retyped hre₂)
      | false => exact .inl (by simp)
    · refine (hr₂ i hi).imp_left fun hmem => ?_
      split
      · exact hmem
      · exact List.mem_cons_of_mem _ hmem

/-- Only the element at the index is lost. -/
theorem mem_removeAt {l : List PNInstruction} {n : Nat} {x : PNInstruction} (hx : l[n]? = some x) (hmem : inst ∈ l) :
    inst = x ∨ inst ∈ removeAt l n := by
  obtain ⟨init, last, rfl⟩ : ∃ init last, l = init ++ [last] :=
    ⟨_, _, (List.dropLast_concat_getLast (List.ne_nil_of_mem hmem)).symm⟩
  obtain ⟨j, hj⟩ := List.getElem?_of_mem hmem
  by_cases hjn : j = n
  · subst hjn
    exact .inl (Option.some.inj (hj.symm.trans hx))
  right
  have hlast : removeAt (init ++ [last]) n = ((init ++ [last]).set n last).dropLast := by simp [removeAt]
  have hn' : n < init.length + 1 := by simpa using (List.getElem?_eq_some_iff.mp hx).1
  have hj' : j < init.length + 1 := by simpa using (List.getElem?_eq_some_iff.mp hj).1
  rw [hlast]
  by_cases hjl : j < init.length
  · apply List.mem_of_getElem? (i := j)
    rw [List.getElem?_dropLast, if_pos (by simpa using hjl), List.getElem?_set_ne (Ne.symm hjn), hj]
  · -- the last element is moved to `n`
    have hinst : inst = last := by
      have : j = init.length := by omega
      subst this
      simpa using hj.symm
    apply List.mem_of_getElem? (i := n)
    rw [List.getElem?_dropLast, if_pos (by simp; omega), List.getElem?_set_self (by simpa using hn'), hinst]

/-- One round over the invalid instructions. -/
theorem retryInvalid_spec : ∀ {left n : Nat} {invalid invalid' : List PNInstruction} {f f' : PNFunction},
    retryInvalid host module left n invalid f = .ok (invalid', f') →
    Retyped module.types.length f f' ∧ ∀ inst ∈ invalid, inst ∈ invalid' ∨ Resolved module f' inst
  | 0, n, invalid, invalid', f, f', h => by
    cases h
    exact ⟨.refl _ _, fun _ => .inl⟩
  | left + 1, n, invalid, invalid', f, f', h => by
    rw [retryInvalid] at h
    split at h
    · cases h
      exact ⟨.refl _ _, fun _ => .inl⟩
    · next x hx =>
      obtain ⟨⟨resolved, f₁⟩, h₁, h⟩ := bind_eq_ok.mp h
      obtain ⟨hre₁, hr₁⟩ := calculateResultValueType_spec h₁
      dsimp only at h
      split at h
      · next hres =>
        obtain ⟨hre₂, hr₂⟩ := retryInvalid_spec h
        refine ⟨hre₁.trans hre₂, ?_⟩
        intro i hi
        rcases mem_removeAt hx hi with rfl | hi
        · exact .inr ((hr₁ hres).retyped hre₂)
        · exact hr₂ i hi
      · obtain ⟨hre₂, hr₂⟩ := retryInvalid_spec h
        exact ⟨hre₁.trans hre₂, hr₂⟩

/-- The rounds end when nothing is left. -/
theorem retryRounds_spec : ∀ {fuel : Nat} {invalid : List PNInstruction} {f f' : PNFunction},
    retryRounds host module fuel invalid f = .ok f' →
    Retyped module.types.length f f' ∧ ∀ inst ∈ invalid, Resolved module f' inst
  | 0, _, _, _, h => by cases h
  | fuel + 1, invalid, f, f', h => by
    obtain ⟨⟨left, f₁⟩, h₁, h⟩ := bind_eq_ok.mp h
    obtain ⟨hre₁, hr₁⟩ := retryInvalid_spec h₁
    dsimp only at h
    split at h
    · obtain ⟨hre₂, hr₂⟩ := retryRounds_spec h
      refine ⟨hre₁.trans hre₂, ?_⟩
      intro i hi
      rcases hr₁ i hi with hi | hi
      · exact hr₂ i hi
      · exact hi.retyped hre₂
    · split at h
      · cases h
      · next hzero =>
        cases h
        refine ⟨hre₁, ?_⟩
        intro i hi
        rcases hr₁ i hi with hi | hi
        · rw [List.eq_nil_of_length_eq_zero (Nat.eq_zero_of_not_pos hzero)] at hi
          cases hi
        · exact hi

/-- **The pass gives a type of the table to the result of every BINOP and VSELECT.** -/
theorem resultValueTypes_spec (h : pnFunctionCalculateResultValueTypes host module f = .ok f') :
    Retyped module.types.length f f' ∧ ∀ inst ∈ f.insts, Resolved module f' inst := by
  obtain ⟨⟨invalid, f₁⟩, h₁, h⟩ := bind_eq_ok.mp h
  obtain ⟨hre₁, hr₁⟩ := resolveTypes_spec h₁
  dsimp only at h
  split at h
  · obtain ⟨hre₂, hr₂⟩ := retryRounds_spec h
    refine ⟨hre₁.trans hre₂, ?_⟩
    intro i hi
    rcases hr₁ i hi with hi | hi
    · exact hr₂ i hi
    · exact hi.retyped hre₂
  · next hzero =>
    cases h
    refine ⟨hre₁, ?_⟩
    intro i hi
    rcases hr₁ i hi with hi | hi
    · rw [List.eq_nil_of_length_eq_zero (Nat.eq_zero_of_not_pos hzero)] at hi
      cases hi
    · exact hi

end Pass

end Pnacl
