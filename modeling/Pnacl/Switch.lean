import Pnacl.Branch
import Pnacl.FrameStorage
import Pnacl.IntegerSemantics
import Pnacl.Opcodes
import Pnacl.InstructionRecords

/-!
# SWITCH, from the record to the branch

The record of a SWITCH lists, for each target, single values and ranges (`SwitchRecord`). Reading expands them into one case for each
value, lowering copies the cases, and executing looks for the first one that equals the scrutinee. All of it together is a dispatch
on the items of the record (`switch_iff`), with two exceptions: a range of `2 ^ 60` or more values has a size that does not fit 64
bits, and the scrutinee `true` of type `i1` is 1, where the record says -1.
-/

namespace Pnacl

open Lib

/-! ## The record -/

/-- A single value or a range. -/
inductive PNCaseItem where
  | single (value : Int)
  | range (low high : Int)
deriving Repr, DecidableEq

def PNCaseItem.low : PNCaseItem → Int
  | .single value => value
  | .range low _ => low

def PNCaseItem.high : PNCaseItem → Int
  | .single value => value
  | .range _ high => high

/-- The number of values. -/
def PNCaseItem.count (item : PNCaseItem) : Int := item.high - item.low + 1

/-- The values, in order. -/
def PNCaseItem.values (item : PNCaseItem) : List Int := (List.range item.count.toNat).map fun (n : Nat) => item.low + n

/-- The values of a target. -/
structure SwitchCase where
  items : List PNCaseItem
  bb : Nat
deriving Repr, DecidableEq

/-- The fields of a SWITCH record. -/
structure SwitchRecord where
  typeId : Nat
  valueId : Nat
  defaultBb : Nat
  cases : List SwitchCase
deriving Repr, DecidableEq

/-- Does an item of the target contain `s`? -/
def SwitchCase.Contains (c : SwitchCase) (s : Int) : Bool := c.items.any fun item => item.low ≤ s ∧ s ≤ item.high

/-- **The meaning of a SWITCH**: the target of the first item that contains the scrutinee, or the default. -/
def SwitchRecord.target (sw : SwitchRecord) (s : Int) : Nat :=
  match sw.cases.find? fun c => c.Contains s with
  | some c => c.bb
  | none => sw.defaultBb

/-- The integers of all items in order, with their targets. -/
def SwitchRecord.expand (sw : SwitchRecord) : List PNSwitchCase :=
  sw.cases.flatMap fun c => (c.items.flatMap PNCaseItem.values).map fun v => ⟨v, c.bb⟩

/-- Every bound is a sign-extended integer of `w` bits. -/
def SwitchRecord.SignExtended (sw : SwitchRecord) (w : Nat) : Prop :=
  ∀ c ∈ sw.cases, ∀ item ∈ c.items, -2 ^ (w - 1) ≤ item.low ∧ item.high < 2 ^ (w - 1)

/-- No range has `2 ^ 60` or more values. -/
def SwitchRecord.Sized (sw : SwitchRecord) : Prop := ∀ c ∈ sw.cases, ∀ item ∈ c.items, item.count < 2 ^ 60

/-! ## The fields of a record -/

/-- The next field is `v`, for a 32-bit and for a 64-bit reader. -/
def Field32 (r : PNRecordReader) (v : Nat) (r' : PNRecordReader) : Prop := pnRecordTryReadUint32 r = .ok (some v, r')
def Field64 (r : PNRecordReader) (v : Nat) (r' : PNRecordReader) : Prop := pnRecordTryReadUint64 r = .ok (some v, r')

/-- The sign-rotated encoding of an `int64_t`. -/
def signRotate (x : Int) : Nat := if x = -2 ^ 63 then 1 else if x < 0 then 2 * x.natAbs + 1 else 2 * x.natAbs

/-- A field that holds a sign-rotated integer. -/
def FieldSigned (r : PNRecordReader) (x : Int) (r' : PNRecordReader) : Prop :=
  (-2 ^ 63 ≤ x ∧ x < 2 ^ 63) ∧ Field64 r (signRotate x) r'

/-- The fields of `as`, one after the other. -/
def FieldsOf {α : Type} (R : PNRecordReader → α → PNRecordReader → Prop) : PNRecordReader → List α → PNRecordReader → Prop
  | r, [], r' => r' = r
  | r, a :: as, r' => ∃ r₁, R r a r₁ ∧ FieldsOf R r₁ as r'

/-- A flag, then one or two bounds. -/
def ItemFields (r : PNRecordReader) (item : PNCaseItem) (r' : PNRecordReader) : Prop :=
  match item with
  | .single value => ∃ flag r₁, flag % 2 ^ 8 ≠ 0 ∧ Field32 r flag r₁ ∧ FieldSigned r₁ value r'
  | .range low high => ∃ flag r₁ r₂, flag % 2 ^ 8 = 0 ∧ Field32 r flag r₁ ∧ FieldSigned r₁ low r₂ ∧ FieldSigned r₂ high r'

/-- The number of items, the items and the target. A negative number stands for none. -/
def CaseFields (r : PNRecordReader) (c : SwitchCase) (r' : PNRecordReader) : Prop :=
  ∃ n r₁ r₂, rounds n = c.items.length ∧ Field32 r n r₁ ∧ FieldsOf ItemFields r₁ c.items r₂ ∧ Field32 r₂ c.bb r'

/-- The whole record behind its code. -/
def SwitchFields (r : PNRecordReader) (sw : SwitchRecord) (r' : PNRecordReader) : Prop :=
  ∃ n r₁ r₂ r₃ r₄, rounds n = sw.cases.length ∧ Field32 r sw.typeId r₁ ∧ Field32 r₁ sw.valueId r₂ ∧
    Field32 r₂ sw.defaultBb r₃ ∧ Field32 r₃ n r₄ ∧ FieldsOf CaseFields r₄ sw.cases r'

/-! ## Reading -/

section Read

variable {r r' : PNRecordReader} {name : String}

theorem Field32.read {v : Nat} (h : Field32 r v r') : pnRecordReadUint32 r name = .ok (v, r') := by
  rw [pnRecordReadUint32, h]
  rfl

/-- Decoding undoes the rotation. -/
theorem decode_signRotate {x : Int} (h₁ : -2 ^ 63 ≤ x) (h₂ : x < 2 ^ 63) : pnDecodeSignRotatedValueInt64 (signRotate x) = x := by
  unfold signRotate pnDecodeSignRotatedValueInt64
  by_cases hmin : x = -2 ^ 63
  · simp [hmin]
  · by_cases hneg : x < 0
    · simp only [hmin, hneg, if_true, if_false]
      rw [if_neg (by omega), if_pos (by omega)]
      omega
    · simp only [hmin, hneg, if_false]
      rw [if_pos (by omega)]
      omega

theorem FieldSigned.read {x : Int} (h : FieldSigned r x r') : pnRecordReadDecodedInt64 r name = .ok (x, r') := by
  obtain ⟨⟨h₁, h₂⟩, h⟩ := h
  rw [pnRecordReadDecodedInt64, pnRecordReadUint64, h]
  simp only [required, ok_bind, decode_signRotate h₁ h₂]

/-- The outcomes of reading: a result, an exit, or an undefined size. -/
inductive Expanded {α : Type} (sized : Prop) (a : α) : Except Stop α → Prop where
  | ok (h : sized) : Expanded sized a (.ok a)
  | exit {e : Stop} (h : e.IsExit) : Expanded sized a (.error e)
  | undefined (what : String) (h : ¬sized) : Expanded sized a (.error (.undefined what))

/-- One more item in front. -/
theorem Expanded.cons {α : Type} {p q : Prop} {a : α} {x : Except Stop α} (hp : p) (h : Expanded q a x) : Expanded (p ∧ q) a x := by
  cases h with
  | ok h => exact .ok ⟨hp, h⟩
  | exit h => exact .exit h
  | undefined what h => exact .undefined what fun hpq => h hpq.2

/-- The end of a round: the size of the range is checked, then its values are appended. -/
theorem readCaseValues_item (item : PNCaseItem) {n : Nat} {items : List PNCaseItem} {r₁ : PNRecordReader} {acc : List Int}
    (ih : ∀ acc, Expanded (∀ item ∈ items, item.count < 2 ^ 60) (acc ++ items.flatMap PNCaseItem.values, r')
      (readCaseValues n r₁ acc)) :
    Expanded (∀ i ∈ item :: items, i.count < 2 ^ 60) (acc ++ (item :: items).flatMap PNCaseItem.values, r')
      (let diff := item.high - item.low + 1
      if 2 ^ 60 ≤ diff then .error (.undefined "diff * sizeof(PNSwitchCase) overflows")
      else do
        pnCheck (diff * 16 < 2 ^ 32) "initial_alloc_size < 0x80000000"
        readCaseValues n r₁ (acc ++ (List.range diff.toNat).map fun (n : Nat) => item.low + n)) := by
  by_cases hbig : 2 ^ 60 ≤ item.high - item.low + 1
  · simp only [if_pos hbig]
    exact .undefined _ fun h => absurd (h item (by simp)) (by unfold PNCaseItem.count; omega)
  · simp only [if_neg hbig]
    by_cases hfit : (item.high - item.low + 1) * 16 < 2 ^ 32
    · rw [pnCheck_bind hfit]
      have := (ih (acc ++ item.values)).cons (show item.count < 2 ^ 60 by unfold PNCaseItem.count; omega)
      simpa [PNCaseItem.values, PNCaseItem.count] using this
    · rw [pnCheck_bind_neg hfit]
      exact .exit trivial

/-- Reading the items of a case. -/
theorem readCaseValues_expanded : ∀ (items : List PNCaseItem) (r : PNRecordReader) (acc : List Int), FieldsOf ItemFields r items r' →
    Expanded (∀ item ∈ items, item.count < 2 ^ 60) (acc ++ items.flatMap PNCaseItem.values, r')
      (readCaseValues items.length r acc)
  | [], r, acc, h => by
    cases h
    simp only [List.length_nil, readCaseValues, List.flatMap_nil, List.append_nil]
    exact .ok (by simp)
  | .single value :: items, r, acc, ⟨r₁, ⟨flag, r₂, hflag, h1, h2⟩, hrest⟩ => by
    simp only [List.length_cons, readCaseValues, h1.read, h2.read, ok_bind, if_neg hflag]
    exact readCaseValues_item (.single value) fun acc => readCaseValues_expanded items r₁ acc hrest
  | .range low high :: items, r, acc, ⟨r₁, ⟨flag, r₂, r₃, hflag, h1, h2, h3⟩, hrest⟩ => by
    simp only [List.length_cons, readCaseValues, h1.read, h2.read, h3.read, ok_bind, if_pos hflag]
    by_cases hle : low ≤ high
    · rw [pnCheck_bind hle]
      exact readCaseValues_item (.range low high) fun acc => readCaseValues_expanded items r₁ acc hrest
    · rw [pnCheck_bind_neg hle]
      exact .exit trivial

/-- One part after the other. -/
theorem Expanded.bind {α β : Type} {p q : Prop} {a : α} {b : β} {x : Except Stop α} {f : α → Except Stop β} {y : Except Stop β}
    (h : Expanded p a x) (hf : f a = y) (hy : Expanded q b y) : Expanded (p ∧ q) b (x >>= f) := by
  cases h with
  | ok h =>
    rw [ok_bind, hf]
    exact hy.cons h
  | exit h => exact .exit h
  | undefined what h => exact .undefined what fun hpq => h hpq.1

theorem Expanded.map {α β : Type} {p : Prop} {a : α} {x : Except Stop α} (h : Expanded p a x) (g : α → β) :
    Expanded p (g a) (x >>= fun a => .ok (g a)) := by
  cases h with
  | ok h => exact .ok h
  | exit h => exact .exit h
  | undefined what h => exact .undefined what h

theorem Expanded.congr {α : Type} {p q : Prop} {a b : α} {x : Except Stop α} (h : Expanded p a x) (hpq : p ↔ q) (hab : a = b) :
    Expanded q b x := by
  subst hab
  cases h with
  | ok h => exact .ok (hpq.mp h)
  | exit h => exact .exit h
  | undefined what h => exact .undefined what (mt hpq.mpr h)

/-- Reading the cases. -/
theorem readCases_expanded : ∀ (cases : List SwitchCase) (r : PNRecordReader) (acc : List PNSwitchCase) (bbs : List Nat),
    FieldsOf CaseFields r cases r' →
    Expanded (∀ c ∈ cases, ∀ item ∈ c.items, item.count < 2 ^ 60)
      (acc ++ cases.flatMap fun c => (c.items.flatMap PNCaseItem.values).map fun v => ⟨v, c.bb⟩, bbs ++ cases.map SwitchCase.bb, r')
      (readCases cases.length r acc bbs)
  | [], r, acc, bbs, h => by
    cases h
    simp only [List.length_nil, readCases, List.flatMap_nil, List.append_nil, List.map_nil]
    exact .ok (by simp)
  | c :: cases, r, acc, bbs, ⟨r₁, ⟨n, r₂, r₃, hn, h1, h2, h3⟩, hrest⟩ => by
    have hitems := readCaseValues_expanded c.items r₂ [] h2
    have ih := readCases_expanded cases r₁ (acc ++ (c.items.flatMap PNCaseItem.values).map fun v => ⟨v, c.bb⟩) (bbs ++ [c.bb]) hrest
    simp only [List.length_cons, readCases, h1.read, ok_bind, hn]
    refine Expanded.congr (hitems.bind ?_ ih) (by simp) (by simp)
    simp only [List.nil_append, h3.read, ok_bind]

/-- **Reading a SWITCH** expands its items, unless the program exits or a range is too large. -/
theorem readSwitch_expanded {sw : SwitchRecord} (h : SwitchFields r sw r') (module : PNModule) (useRelativeIds : Bool) (relId : Nat) :
    Expanded sw.Sized ⟨.switch (toTypeId sw.typeId) (absoluteId useRelativeIds relId sw.valueId) sw.defaultBb sw.expand
      (sw.cases.map SwitchCase.bb), none, r'⟩ (readSwitch module useRelativeIds relId r) := by
  obtain ⟨n, r₁, r₂, r₃, r₄, hn, h1, h2, h3, h4, hcases⟩ := h
  simp only [readSwitch, h1.read, h2.read, h3.read, h4.read, ok_bind, hn]
  by_cases ht : toTypeId sw.typeId < module.types.length
  · rw [pnTypeIdCheck, pnCheck_bind ht]
    have h := readCases_expanded sw.cases r₄ [] [] hcases
    rw [List.nil_append, List.nil_append] at h
    exact h.map fun p => (⟨.switch (toTypeId sw.typeId) (absoluteId useRelativeIds relId sw.valueId) sw.defaultBb p.1 p.2.1, none,
      p.2.2⟩ : PNInstructionRecord)
  · rw [pnTypeIdCheck, pnCheck_bind_neg ht]
    exact .exit trivial

end Read

/-! ## Dispatch -/

section Dispatch

variable {sw : SwitchRecord} {t : PNBasicType}

theorem PNCaseItem.mem_values {item : PNCaseItem} {s : Int} : s ∈ item.values ↔ item.low ≤ s ∧ s ≤ item.high := by
  simp only [values, count, List.mem_map, List.mem_range]
  constructor
  · rintro ⟨n, hn, rfl⟩
    omega
  · rintro ⟨h₁, h₂⟩
    exact ⟨(s - item.low).toNat, by omega, by omega⟩

theorem SwitchCase.contains_iff {c : SwitchCase} {s : Int} : c.Contains s = true ↔ s ∈ c.items.flatMap PNCaseItem.values := by
  simp [Contains, PNCaseItem.mem_values]

/-- The cases of one target: the scrutinee is found if it is one of the values. -/
theorem find_values (a : Nat) (s : Int) (vs : List Int) :
    ((vs.map fun v => (⟨v, a⟩ : PNRuntimeSwitchCase)).find? fun c => s = c.value) = if s ∈ vs then some ⟨s, a⟩ else none := by
  induction vs with
  | nil => rfl
  | cons v vs ih =>
    rw [List.map_cons, List.find?_cons, ih]
    by_cases h : s = v
    · subst h
      simp
    · simp [h]

/-- The first case that equals `s` has the target of the first item that contains it. -/
theorem find_expand (address : Nat → Nat) (s : Int) (cases : List SwitchCase) :
    (((cases.flatMap fun c => (c.items.flatMap PNCaseItem.values).map fun v => (⟨v, c.bb⟩ : PNSwitchCase)).map fun c =>
      (⟨c.value, address c.bb⟩ : PNRuntimeSwitchCase)).find? fun c => s = c.value) =
      (cases.find? fun c => c.Contains s).map fun c => ⟨s, address c.bb⟩ := by
  induction cases with
  | nil => rfl
  | cons c cases ih =>
    have hvalues : ((c.items.flatMap PNCaseItem.values).map fun v => (⟨v, c.bb⟩ : PNSwitchCase)).map
        (fun c => (⟨c.value, address c.bb⟩ : PNRuntimeSwitchCase)) =
        (c.items.flatMap PNCaseItem.values).map fun v => ⟨v, address c.bb⟩ := by
      rw [List.map_map]
      rfl
    rw [List.flatMap_cons, List.map_append, List.find?_append, ih, List.find?_cons, hvalues, find_values]
    cases hc : c.Contains s with
    | true =>
      rw [if_pos (SwitchCase.contains_iff.mp hc)]
      rfl
    | false =>
      rw [if_neg (fun hm => by rw [SwitchCase.contains_iff.mpr hm] at hc; cases hc)]
      rfl

/-- The address that the executor goes to when the scrutinee reads as `s`. -/
theorem find_target (address : Nat → Nat) (sw : SwitchRecord) (s : Int) :
    (match ((sw.expand.map fun c => (⟨c.value, address c.bb⟩ : PNRuntimeSwitchCase)).find? fun c => s = c.value) with
      | some c => c.inst
      | none => address sw.defaultBb) = address (sw.target s) := by
  rw [SwitchRecord.expand, find_expand, SwitchRecord.target]
  cases sw.cases.find? fun c => c.Contains s <;> rfl

theorem switchValue_of_ne (ht : t.isInteger = true) (h1 : t ≠ .int1) (value : Nat) :
    switchValue t value = Int.bmod value (2 ^ t.width) := by
  cases t with
  | int8 | int16 | int32 | int64 => rfl
  | int1 => exact absurd rfl h1
  | void | float | double => cases ht

/-- A byte below 2 is not negative. -/
theorem switchValue_int1 {value n : Nat} (h : value % 2 ^ 8 = n) (hn : n < 2) : switchValue .int1 value = n := by
  have hmod : Int.bmod n (2 ^ 8) = Int.bmod value (2 ^ 8) := by rw [← h, Int.natCast_mod, Int.emod_bmod]
  have hcases : n = 0 ∨ n = 1 := by omega
  refine Eq.trans hmod.symm ?_
  rcases hcases with h0 | h1
  · rw [h0]
    decide
  · rw [h1]
    decide

/-- What the executor reads of a scrutinee. -/
theorem switchValue_eq (ht : t.isInteger = true) {value : Nat} {x : BitVec t.width} (hx : Holds t value x) :
    switchValue t value = if t = .int1 then (x.toNat : Int) else x.toInt := by
  unfold Holds at hx
  by_cases h1 : t = .int1
  · rw [if_pos h1]
    subst h1
    exact switchValue_int1 hx x.isLt
  · rw [PNBasicType.memberWidth_eq h1] at hx
    rw [if_neg h1, switchValue_of_ne ht h1, BitVec.toInt_eq_toNat_bmod, ← hx, Int.natCast_mod, Int.emod_bmod]

/-- No item of a record over `i1` contains 1. -/
theorem target_one (h : sw.SignExtended 1) : sw.target 1 = sw.defaultBb := by
  have hnone : (sw.cases.find? fun c => c.Contains 1) = none := by
    rw [List.find?_eq_none]
    intro c hc hcon
    obtain ⟨item, hi, h1⟩ := List.any_eq_true.mp hcon
    have := h c hc item hi
    simp only [decide_eq_true_eq] at h1
    omega
  rw [SwitchRecord.target, hnone]

/-- The block that the executor chooses. -/
theorem target_switchValue (ht : t.isInteger = true) (hext : sw.SignExtended t.width) {value : Nat} {x : BitVec t.width}
    (hx : Holds t value x) :
    sw.target (switchValue t value) = if t = .int1 ∧ x.toInt = -1 then sw.defaultBb else sw.target x.toInt := by
  rw [switchValue_eq ht hx]
  by_cases h1 : t = .int1
  · subst h1
    rcases BitVec.eq_zero_or_eq_one x with rfl | rfl
    · rfl
    · exact target_one hext
  · rw [if_neg h1, if_neg (fun h => h1 h.1)]

/-- A branch that returns has gone to its destination. -/
theorem opcodeBranch_inst {ex : PNExecutor} {stream : PNIstream} {malloc : Malloc} {th th' : PNThread} {r : PNRuntimeInstruction}
    {destInst : Nat} (hr : stream.at th.inst = some r) (hd : newInst ex th r = some destInst)
    (h : opcodeBranch ex stream malloc th = .ok th') : th'.inst = destInst := by
  rw [opcodeBranch, hr, Option.bind_some, hd] at h
  simp only [branchTo, hr] at h
  split at h
  · obtain ⟨th₁, -, h⟩ := bind_eq_ok.mp h
    cases h
    rfl
  · cases h

end Dispatch

/-! ## End to end -/

section EndToEnd

variable (host : PNHost) (ex : PNExecutor) (module module' : PNModule) (function : PNFunction) (useRelativeIds : Bool)
  (relId : Nat) (bbOffsets : List Nat)

/-- The record is read and its expanded cases are lowered, and control goes to the block of the first item that contains `s`. -/
def Dispatches (r r' : PNRecordReader) (sw : SwitchRecord) (th : PNThread) (s : Int) : Prop :=
  ∃ bbs inst, readSwitch module useRelativeIds relId r =
      .ok ⟨.switch (toTypeId sw.typeId) (absoluteId useRelativeIds relId sw.valueId) sw.defaultBb sw.expand bbs, none, r'⟩ ∧
    lowerInstruction host module' function bbOffsets
      (.switch (toTypeId sw.typeId) (absoluteId useRelativeIds relId sw.valueId) sw.defaultBb sw.expand bbs) = .ok (some inst) ∧
    newInst ex th inst = some (bbOffsetAt host bbOffsets (sw.target s)) ∧
    ∀ stream malloc th', stream.at th.inst = some inst → opcodeBranch ex stream malloc th = .ok th' →
      th'.inst = bbOffsetAt host bbOffsets (sw.target s)

variable {host ex module module' function useRelativeIds relId bbOffsets}

/-- The lowered instruction and its destination. -/
theorem lower_switch (sw : SwitchRecord) (bbOffsets : List Nat) (typeId : Nat) (bbs : List Nat) {id : Nat}
    {t : PNBasicType} (ht : t.isInteger = true) (hid : basicTypeOf host module' function id = .ok t) : ∃ inst,
      lowerInstruction host module' function bbOffsets (.switch typeId id sw.defaultBb sw.expand bbs) = .ok (some inst) ∧
      ∀ ex th, newInst ex th inst = some (bbOffsetAt host bbOffsets (sw.target (switchValue t (pnThreadGetValue ex th id)))) := by
  have hmem : t ∈ [PNBasicType.int1, .int8, .int16, .int32, .int64] := by
    cases t <;> first | decide | cases ht
  refine ⟨.switch (.switch t) id (bbOffsetAt host bbOffsets sw.defaultBb) sw.expand.length
    (sw.expand.map fun c => ⟨c.value, bbOffsetAt host bbOffsets c.bb⟩), ?_, fun ex th => ?_⟩
  · simp only [lowerInstruction, hid, ok_bind, ifType, if_pos hmem]
  · rw [newInst, List.take_of_length_le (by simp)]
    exact congrArg some (find_target _ sw _)

/-- **SWITCH end to end.** For every record whose bounds are sign-extended integers of the scrutinee's type and every scrutinee, unless
the program rejects the record with an exit: reading, lowering and executing it goes to the block of the first item that contains the
scrutinee iff no range has `2 ^ 60` or more values and, for the scrutinee -1 of type `i1`, that block is the default block. -/
theorem switch_iff {r r' : PNRecordReader} {sw : SwitchRecord} {t : PNBasicType} {th : PNThread} {x : BitVec t.width}
    (hfields : SwitchFields r sw r') (hext : sw.SignExtended t.width) (ht : t.isInteger = true)
    (hid : basicTypeOf host module' function (absoluteId useRelativeIds relId sw.valueId) = .ok t)
    (hx : Holds t (pnThreadGetValue ex th (absoluteId useRelativeIds relId sw.valueId)) x)
    (haccepted : ∀ e, readSwitch module useRelativeIds relId r = .error e → ¬e.IsExit) :
    Dispatches host ex module module' function useRelativeIds relId bbOffsets r r' sw th x.toInt ↔
      sw.Sized ∧ (t = .int1 → x.toInt = -1 →
        bbOffsetAt host bbOffsets (sw.target (-1)) = bbOffsetAt host bbOffsets sw.defaultBb) := by
  have hread := readSwitch_expanded hfields module useRelativeIds relId
  have hsized : sw.Sized ↔ ∃ rec, readSwitch module useRelativeIds relId r = .ok rec := by
    constructor
    · intro hs
      generalize readSwitch module useRelativeIds relId r = res at hread haccepted
      cases hread with
      | ok _ => exact ⟨_, rfl⟩
      | exit he => exact absurd he (haccepted _ rfl)
      | undefined _ hn => exact absurd hs hn
    · rintro ⟨rec, hrec⟩
      rw [hrec] at hread
      cases hread with
      | ok hs => exact hs
  have htarget := target_switchValue ht hext hx
  constructor
  · rintro ⟨bbs, inst, hok, hlower, hnew, -⟩
    refine ⟨hsized.mpr ⟨_, hok⟩, fun h1 hneg => ?_⟩
    obtain ⟨inst', hlower', hdest⟩ := lower_switch sw bbOffsets (toTypeId sw.typeId) bbs ht hid
    rw [hlower] at hlower'
    cases hlower'
    have hd := hdest ex th
    rw [hnew, htarget, if_pos ⟨h1, hneg⟩, hneg] at hd
    exact Option.some.inj hd
  · rintro ⟨hs, hi1⟩
    obtain ⟨rec, hrec⟩ := hsized.mp hs
    obtain ⟨inst, hlower, hdest⟩ := lower_switch sw bbOffsets (toTypeId sw.typeId) (sw.cases.map SwitchCase.bb) ht hid
    have haddr : bbOffsetAt host bbOffsets (sw.target (switchValue t (pnThreadGetValue ex th
        (absoluteId useRelativeIds relId sw.valueId)))) = bbOffsetAt host bbOffsets (sw.target x.toInt) := by
      rw [htarget]
      split
      next h => rw [h.2, hi1 h.1 h.2]
      next => rfl
    have hnew := hdest ex th
    rw [haddr] at hnew
    refine ⟨_, inst, ?_, hlower, hnew, fun stream malloc th' hat h => opcodeBranch_inst hat hnew h⟩
    rw [hrec] at hread ⊢
    cases hread
    rfl

end EndToEnd

/-! ## A switch over `i1` -/

/-- Behind the code of an unabbreviated record: type 0, value 0, default block 0, and one case of the single value -1 with block 1. -/
def demoSwitchReader : PNRecordReader :=
  { pnRecordReaderInit (pnBitstreamInit (fun i => [0, 0, 4, 65, 48, 4, 0, 0].getD i 0) 8) [] pnEntryUnabbrevRecord with numValues := 8 }

def demoSwitch : SwitchRecord := ⟨0, 0, 0, [⟨[.single (-1)], 1⟩]⟩

/-- A module with one value, of the given type. -/
def demoSwitchModule (t : PNType) : PNModule :=
  { pnModuleInit ⟨fun _ => 0, 2 ^ 16⟩ with types := [t], values := [⟨.functionArg 0, 0⟩] }

/-- The value is read as `value`. -/
def demoSwitchExecutor (value : Nat) : PNExecutor := { demoExecutor with numValues := 1, moduleValues := fun _ => value }

def demoSwitchThread : PNThread where
  allocator := ⟨[], 0, 65536, 0, 0, ⟨0, 0, 0, 0⟩⟩
  mem _ := 0
  currentFrame := 0
  inst := 0
  functionId := 0
  memory := ⟨fun _ => 0, 2 ^ 16⟩
  numSetjmps := 0
  dead := false

theorem demoSwitch_fields : ∃ r', SwitchFields demoSwitchReader demoSwitch r' :=
  ⟨_, 1, _, _, _, _, rfl, rfl, rfl, rfl, rfl, _, ⟨1, _, _, rfl, rfl, ⟨_, ⟨1, _, by decide, rfl, by decide, rfl⟩, rfl⟩, rfl⟩, rfl⟩

/-- Over `i8` the scrutinee 255 is -1 and goes to block 1. -/
theorem switch_iff_int8 : ∃ r', Dispatches zeroHost (demoSwitchExecutor 255) (demoSwitchModule (.integer 8 .int8))
    (demoSwitchModule (.integer 8 .int8)) demoProduct false 1 [100, 200] demoSwitchReader r' demoSwitch demoSwitchThread (-1) := by
  obtain ⟨r', hfields⟩ := demoSwitch_fields
  obtain ⟨rec, hrec⟩ : ∃ rec, readSwitch (demoSwitchModule (.integer 8 .int8)) false 1 demoSwitchReader = .ok rec := ⟨_, rfl⟩
  have hsized : demoSwitch.Sized := by
    intro c hc item hi
    cases List.mem_singleton.mp hc
    cases List.mem_singleton.mp hi
    decide
  have hext : demoSwitch.SignExtended PNBasicType.int8.width := by
    intro c hc item hi
    cases List.mem_singleton.mp hc
    cases List.mem_singleton.mp hi
    decide
  have hx : Holds .int8 (pnThreadGetValue (demoSwitchExecutor 255) demoSwitchThread 0) 255#8 := rfl
  have haccepted (e : Stop) (he : readSwitch (demoSwitchModule (.integer 8 .int8)) false 1 demoSwitchReader = .error e) :
      ¬e.IsExit := by
    rw [hrec] at he
    cases he
  exact ⟨r', (switch_iff hfields hext rfl rfl hx haccepted).mpr ⟨hsized, fun h => by cases h⟩⟩

/-- Over `i1` the scrutinee `true` is -1 in the record and 1 in the executor: it goes to the default block. -/
theorem switch_int1_default : ∃ r' rec inst, SwitchFields demoSwitchReader demoSwitch r' ∧
    readSwitch (demoSwitchModule (.integer 1 .int1)) false 1 demoSwitchReader = .ok rec ∧
    lowerInstruction zeroHost (demoSwitchModule (.integer 1 .int1)) demoProduct [100, 200] rec.instruction = .ok (some inst) ∧
    Holds .int1 (pnThreadGetValue (demoSwitchExecutor 1) demoSwitchThread 0) 1#1 ∧ (1#1).toInt = -1 ∧
    bbOffsetAt zeroHost [100, 200] (demoSwitch.target (-1)) = 200 ∧
    newInst (demoSwitchExecutor 1) demoSwitchThread inst = some 100 := by
  obtain ⟨r', hfields⟩ := demoSwitch_fields
  exact ⟨r', _, _, hfields, rfl, rfl, rfl, by decide, rfl, rfl⟩

end Pnacl
