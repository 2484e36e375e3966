import Pnacl.RecordFields

/-!
# The handlers of records

One walk through everything that the block readers do with the fields of a record. A `FieldRule` says what reading a field
keeps, and how many fields are left at most; then the handlers keep it too, come to the end of the record with it, and run out
of fuel only if there is too little for the fields. What the walk is used for is stated apart: where a handler leaves the
stream, and that it comes to an end at all.
-/

namespace Pnacl

open Lib PNBitStream

/-! ## Running out of fuel -/

/-- Whatever the computation does, no loop of it runs out of fuel. -/
def NoFuel {α : Type} (m : Except Stop α) : Prop := m ≠ .error .fuel

section NoFuel

variable {α β : Type} {m : Except Stop α} {f : α → Except Stop β} {p : Prop} [Decidable p] {c : String}

theorem NoFuel.ok {a : α} : NoFuel (.ok a : Except Stop α) := nofun

theorem NoFuel.error {e : Stop} (h : e ≠ .fuel) : NoFuel (.error e : Except Stop α) := fun he => h (Except.error.inj he)

theorem NoFuel.bind (hm : NoFuel m) (hf : ∀ a, m = .ok a → NoFuel (f a)) : NoFuel (m >>= f) := by
  cases hm' : m with
  | ok a => exact hf a hm'
  | error e => exact .error fun he => hm (hm'.trans (congrArg _ he))

theorem NoFuel.fatal {s : String} {args : List Int} : NoFuel (pnFatal s args : Except Stop α) := nofun

theorem NoFuel.check : NoFuel (pnCheck p c) := by
  unfold NoFuel pnCheck require
  split <;> exact nofun

theorem NoFuel.cAssert : NoFuel (cAssert p c) := by
  unfold NoFuel Pnacl.cAssert require
  split <;> exact nofun

end NoFuel

theorem pnModuleFindIntegerType_noFuel (module : PNModule) (width : Nat) : NoFuel (pnModuleFindIntegerType module width) := by
  unfold pnModuleFindIntegerType
  split
  · exact .ok
  · exact .fatal

theorem alignmentOf_noFuel (n : Nat) : NoFuel (alignmentOf n) := by
  unfold alignmentOf
  split
  · exact .error nofun
  · exact .ok

/-! ## Rules -/

/-- What reading the fields of a record keeps. `left` bounds the fields that are left, and `Ends` holds behind the last one.
Fuel is the only thing that a computation may be blamed for lacking. -/
structure FieldRule where
  bad : Stop → Prop
  Holds : PNRecordReader → Prop
  left : PNRecordReader → Nat
  Ends : PNBitStream → Prop
  bad_fuel : ∀ {e}, bad e → e = .fuel
  try32 : ∀ {r}, Holds r → Avoids bad (pnRecordTryReadUint32 r) fun x =>
    Holds x.2 ∧ (bad .fuel → left x.2 + x.1.toList.length ≤ left r)
  try64 : ∀ {r}, Holds r → Avoids bad (pnRecordTryReadUint64 r) fun x => Holds x.2 ∧ (bad .fuel → left x.2 ≤ left r)
  back : ∀ {fuel r vs r'}, Holds r → readValues fuel r = .ok (vs, r') →
    Avoids bad (pnBitstreamSeekBit r'.bs r.bs.bitOffset) fun bs => Holds (r.at bs) ∧ (bad .fuel → left (r.at bs) ≤ left r)
  ends : ∀ {fuel r vs r'}, Holds r → readValues fuel r = .ok (vs, r') → Ends r'.bs

namespace FieldRule

variable (R : FieldRule)

/-- The fuel is enough for the fields that are left. -/
structure Ready (fuel : Nat) (r : PNRecordReader) : Prop where
  holds : R.Holds r
  fuel : R.bad .fuel → R.left r < fuel

/-- The computation goes on to the reader in its result. -/
def Guides {α : Type} (fuel : Nat) (m : Except Stop α) (out : α → PNRecordReader) : Prop :=
  Avoids R.bad m fun x => R.Ready fuel (out x)

end FieldRule

open FieldRule

section Rule

variable {R : FieldRule} {fuel : Nat} {r : PNRecordReader} {α β σ : Type}

theorem FieldRule.Ready.mono {fuel' : Nat} (h : R.Ready fuel r) (hle : fuel ≤ fuel') : R.Ready fuel' r :=
  ⟨h.holds, fun hb => (h.fuel hb).trans_le hle⟩

/-- Behind a field. -/
theorem FieldRule.Ready.of_le {r' : PNRecordReader} (h : R.Ready fuel r) (hr : R.Holds r')
    (hle : R.bad .fuel → R.left r' ≤ R.left r) : R.Ready fuel r' :=
  ⟨hr, fun hb => (hle hb).trans_lt (h.fuel hb)⟩

theorem FieldRule.error {Q : α → Prop} {e : Stop} (h : e ≠ .fuel) : Avoids R.bad (.error e) Q :=
  .error fun hb => h (R.bad_fuel hb)

theorem FieldRule.fatal {Q : α → Prop} {s : String} {args : List Int} : Avoids R.bad (pnFatal s args) Q := error nofun

/-- A step that does not touch the reader. -/
theorem FieldRule.skip {m : Except Stop α} {f : α → Except Stop β} {Q : β → Prop} (hm : NoFuel m)
    (hf : ∀ a, Avoids R.bad (f a) Q) : Avoids R.bad (m >>= f) Q :=
  .bind_ok (fun _ he hb => hm (he.trans (congrArg _ (R.bad_fuel hb)))) fun a _ => hf a

/-! ## Fields -/

theorem guides_try32 (h : R.Ready fuel r) : R.Guides fuel (pnRecordTryReadUint32 r) Prod.snd :=
  (R.try32 h.holds).mono fun _ hx => h.of_le hx.1 fun hb => Nat.le_of_add_right_le (hx.2 hb)

/-- A field that is there uses up fuel. -/
theorem avoids_try32 (h : R.Ready (fuel + 1) r) : Avoids R.bad (pnRecordTryReadUint32 r) fun x =>
    R.Ready (fuel + 1) x.2 ∧ ∀ v, x.1 = some v → R.Ready fuel x.2 := by
  refine (R.try32 h.holds).mono fun x hx => ⟨h.of_le hx.1 fun hb => Nat.le_of_add_right_le (hx.2 hb), fun v hv => ?_⟩
  refine ⟨hx.1, fun hb => ?_⟩
  have hle := hx.2 hb
  have hlt := h.fuel hb
  rw [hv, Option.toList_some, List.length_singleton] at hle
  omega

theorem guides_required {o : Option Nat} (h : R.Ready fuel r) (name : String) :
    R.Guides fuel (required name (o, r)) Prod.snd := by
  cases o with
  | none => exact fatal
  | some v => exact .ok h

theorem guides_uint32 (h : R.Ready fuel r) (name : String) : R.Guides fuel (pnRecordReadUint32 r name) Prod.snd :=
  (guides_try32 h).bind fun ⟨_, _⟩ h => guides_required h name

theorem guides_try16 (h : R.Ready fuel r) : R.Guides fuel (pnRecordTryReadUint16 r) Prod.snd := by
  refine (guides_try32 h).bind fun ⟨o, q⟩ h => ?_
  cases o with
  | none => exact .ok h
  | some v =>
    dsimp only
    split
    · exact fatal
    · exact .ok h

theorem guides_uint16 (h : R.Ready fuel r) (name : String) : R.Guides fuel (pnRecordReadUint16 r name) Prod.snd :=
  (guides_try16 h).bind fun ⟨_, _⟩ h => guides_required h name

theorem guides_try64 (h : R.Ready fuel r) : R.Guides fuel (pnRecordTryReadUint64 r) Prod.snd :=
  (R.try64 h.holds).mono fun _ hx => h.of_le hx.1 hx.2

theorem guides_uint64 (h : R.Ready fuel r) (name : String) : R.Guides fuel (pnRecordReadUint64 r name) Prod.snd :=
  (guides_try64 h).bind fun ⟨_, _⟩ h => guides_required h name

theorem guides_int64 (h : R.Ready fuel r) (name : String) : R.Guides fuel (pnRecordReadDecodedInt64 r name) Prod.snd :=
  (guides_uint64 h name).bind fun ⟨_, _⟩ h => .ok h

theorem guides_int32 (h : R.Ready fuel r) (name : String) : R.Guides fuel (pnRecordReadDecodedInt32 r name) Prod.snd := by
  refine (guides_int64 h name).bind fun ⟨v, q⟩ h => ?_
  dsimp only
  split
  · exact fatal
  · exact .ok h

/-- The loop over the rest of a record has enough fuel. -/
theorem guides_values : ∀ {fuel : Nat} {r : PNRecordReader}, R.Ready fuel r → R.Guides fuel (readValues fuel r) Prod.snd
  | 0, r, h => .error fun hb => absurd (h.fuel (R.bad_fuel hb ▸ hb)) (Nat.not_lt_zero _)
  | fuel + 1, r, h => by
    refine (avoids_try32 h).bind fun ⟨o, q⟩ ⟨hq, hnext⟩ => ?_
    cases o with
    | none => exact .ok hq
    | some v =>
      refine (guides_values (hnext v rfl)).bind fun ⟨vs, q'⟩ h' => ?_
      exact .ok (h'.mono (Nat.le_succ fuel))

/-- Counting the fields that are left comes back to the same place. -/
theorem guides_numValuesLeft (h : R.Ready fuel r) : R.Guides fuel (pnRecordNumValuesLeft fuel r) Prod.snd := by
  refine .bind_ok (guides_values h).2 fun ⟨vs, r'⟩ hvs => ?_
  dsimp only
  split
  · exact error nofun
  · refine (R.back h.holds hvs).bind fun bs hbs => ?_
    exact .ok (h.of_le hbs.1 hbs.2)

/-- The record is finished. -/
theorem avoids_finish {s : σ} {Q : σ × PNBitStream → Prop} (h : R.Ready fuel r) (hQ : ∀ bs, R.Ends bs → Q (s, bs)) :
    Avoids R.bad (finish fuel s r) Q := by
  refine Avoids.bind (Q := R.Ends) ?_ fun bs hbs => .ok (hQ bs hbs)
  exact .bind_ok (guides_values h).2 fun ⟨vs, r'⟩ hvs => .ok (R.ends h.holds hvs)

/-! ## Instruction records -/

theorem guides_args {useRelativeIds : Bool} {valueId : Nat} : ∀ (n : Nat) {r : PNRecordReader} (args : List Nat),
    R.Ready fuel r → R.Guides fuel (readArgs useRelativeIds valueId n r args) Prod.snd
  | 0, _, _, h => .ok h
  | n + 1, _, _, h => (guides_uint32 h _).bind fun ⟨_, _⟩ h => guides_args n _ h

theorem guides_caseValues : ∀ (n : Nat) {r : PNRecordReader} (values : List Int), R.Ready fuel r →
    R.Guides fuel (readCaseValues n r values) Prod.snd
  | 0, _, _, h => .ok h
  | n + 1, _, values, h => by
    refine (guides_uint32 h _).bind fun p h => ?_
    obtain ⟨isSingle, r₁⟩ := p
    refine (guides_int64 h _).bind fun p h => ?_
    obtain ⟨low, r₂⟩ := p
    have hrest : ∀ (high : Int) {r₃ : PNRecordReader}, R.Ready fuel r₃ →
        R.Guides fuel (if 2 ^ 60 ≤ high - low + 1 then .error (.undefined "diff * sizeof(PNSwitchCase) overflows")
          else do
            pnCheck ((high - low + 1) * 16 < 2 ^ 32) "initial_alloc_size < 0x80000000"
            readCaseValues n r₃ (values ++ (List.range (high - low + 1).toNat).map fun (n : Nat) => low + n)) Prod.snd := by
      intro high r₃ h
      split
      · exact error fun he => by cases he
      · exact skip .check fun _ => guides_caseValues n _ h
    dsimp only at h ⊢
    split
    · refine (guides_int64 h _).bind fun p h => skip .check fun _ => ?_
      rw [ok_bind]
      exact hrest p.1 h
    · rw [ok_bind]
      exact hrest low h

theorem guides_cases : ∀ (n : Nat) {r : PNRecordReader} (cases : List PNSwitchCase) (bbs : List Nat), R.Ready fuel r →
    R.Guides fuel (readCases n r cases bbs) (·.2.2)
  | 0, _, _, _, h => .ok h
  | n + 1, _, _, _, h =>
    (guides_uint32 h _).bind fun ⟨_, _⟩ h => (guides_caseValues _ _ h).bind fun ⟨_, _⟩ h =>
      (guides_uint32 h _).bind fun ⟨_, _⟩ h => guides_cases n _ _ h

/-- Every entry of a PHI uses up fuel. -/
theorem guides_incoming {useRelativeIds : Bool} {relId : Nat} (dedupe : Bool) : ∀ {fuel : Nat} {r : PNRecordReader}
    (incoming : List PNPhiIncoming), R.Ready fuel r →
    R.Guides fuel (readIncoming dedupe useRelativeIds relId fuel r incoming) Prod.snd
  | 0, r, _, h => .error fun hb => absurd (h.fuel (R.bad_fuel hb ▸ hb)) (Nat.not_lt_zero _)
  | fuel + 1, r, incoming, h => by
    refine (avoids_try32 h).bind fun ⟨value, r₁⟩ ⟨h₁, hnext⟩ => ?_
    cases value with
    | none => exact .ok h₁
    | some value =>
      refine (guides_try16 (hnext value rfl)).bind fun ⟨bb, r₂⟩ h => ?_
      cases bb with
      | none => exact fatal
      | some bb =>
        dsimp only at h ⊢
        generalize absoluteId useRelativeIds relId _ = value
        have hrest : ∀ incoming, R.Guides (fuel + 1) (readIncoming dedupe useRelativeIds relId fuel r₂ incoming) Prod.snd :=
          fun incoming => (guides_incoming dedupe incoming h).mono fun _ h => h.mono (Nat.le_succ fuel)
        split
        · split
          · exact hrest _
          · exact fatal
        · exact hrest _

theorem guides_alignment (h : R.Ready fuel r) : R.Guides fuel (readAlignment r) Prod.snd :=
  (guides_uint32 h _).bind fun ⟨_, _⟩ h => skip (alignmentOf_noFuel _) fun _ => .ok h

theorem directReturnType_noFuel (host : PNHost) (module : PNModule) (calleeId : Nat) :
    NoFuel (directReturnType host module calleeId) := by
  refine .bind .check fun _ _ => ?_
  split
  · split
    · exact .error nofun
    · split
      · exact .ok
      · exact .error nofun
  · exact .error nofun

theorem guides_returnType (host : PNHost) (module : PNModule) (calleeId : Nat) (isIndirect : Bool) (h : R.Ready fuel r) :
    R.Guides fuel (readReturnType host module calleeId isIndirect r) Prod.snd := by
  rw [readReturnType]
  split
  · exact (guides_uint32 h _).bind fun ⟨_, _⟩ h => skip .check fun _ => .ok h
  · exact skip (directReturnType_noFuel host module calleeId) fun _ => .ok h

theorem guides_call {useRelativeIds : Bool} {relId : Nat} (host : PNHost) (module : PNModule) (isIndirect : Bool)
    (h : R.Ready fuel r) : R.Guides fuel (readCall host fuel module useRelativeIds relId isIndirect r) (·.reader) := by
  refine (guides_uint32 h _).bind fun ⟨ccInfo, r₁⟩ h => ?_
  refine (guides_uint32 h _).bind fun ⟨callee, r₂⟩ h => ?_
  refine (guides_returnType host module _ isIndirect h).bind fun ⟨returnTypeId, r₃⟩ h => ?_
  refine (guides_numValuesLeft h).bind fun ⟨numArgs, r₄⟩ h => ?_
  refine (guides_args numArgs _ h).bind fun ⟨argIds, r₅⟩ h => ?_
  dsimp only at h ⊢
  split
  · exact .ok h
  · exact .ok h

theorem guides_br {useRelativeIds : Bool} {relId : Nat} (h : R.Ready fuel r) :
    R.Guides fuel (readBr useRelativeIds relId r) (·.reader) := by
  refine (guides_uint32 h _).bind fun ⟨trueBb, r₁⟩ h => ?_
  refine (guides_try16 h).bind fun ⟨falseBb, r₂⟩ h => ?_
  cases falseBb with
  | none => exact .ok h
  | some falseBb => exact (guides_uint32 h _).bind fun ⟨_, _⟩ h => .ok h

/-- Every instruction record reads on from its operands. -/
theorem guides_instruction {useRelativeIds : Bool} {relId : Nat} (host : PNHost) (dedupe : Bool) (module : PNModule) (code : Nat)
    (h : R.Ready fuel r) :
    R.Guides fuel (readInstruction host dedupe fuel module useRelativeIds relId code r) (·.reader) := by
  unfold readInstruction
  split
  · exact (guides_uint32 h _).bind fun ⟨_, _⟩ h => (guides_uint32 h _).bind fun ⟨_, _⟩ h =>
      (guides_uint32 h _).bind fun ⟨_, _⟩ h => (guides_try32 h).bind fun ⟨_, _⟩ h => .ok h
  · exact (guides_uint32 h _).bind fun ⟨_, _⟩ h => (guides_uint32 h _).bind fun ⟨_, _⟩ h =>
      (guides_uint32 h _).bind fun ⟨_, _⟩ h => skip .check fun _ => .ok h
  · exact (guides_try32 h).bind fun ⟨_, _⟩ h => .ok h
  · exact guides_br h
  · exact (guides_uint32 h _).bind fun ⟨_, _⟩ h => (guides_uint32 h _).bind fun ⟨_, _⟩ h =>
      (guides_uint32 h _).bind fun ⟨_, _⟩ h => skip .check fun _ => (guides_uint32 h _).bind fun ⟨_, _⟩ h =>
      (guides_cases _ _ _ h).bind fun ⟨_, _, _⟩ h => .ok h
  · exact .ok h
  · exact (guides_uint32 h _).bind fun ⟨_, _⟩ h => skip .check fun _ =>
      (guides_incoming dedupe _ h).bind fun ⟨_, _⟩ h => .ok h
  · exact skip (pnModuleFindIntegerType_noFuel _ _) fun _ => (guides_uint32 h _).bind fun ⟨_, _⟩ h =>
      (guides_alignment h).bind fun ⟨_, _⟩ h => skip .check fun _ => .ok h
  · exact (guides_uint32 h _).bind fun ⟨_, _⟩ h => (guides_alignment h).bind fun ⟨_, _⟩ h =>
      (guides_uint32 h _).bind fun ⟨_, _⟩ h => skip .check fun _ => .ok h
  · exact (guides_uint32 h _).bind fun ⟨_, _⟩ h => (guides_uint32 h _).bind fun ⟨_, _⟩ h =>
      (guides_alignment h).bind fun ⟨_, _⟩ h => skip .check fun _ => .ok h
  · exact skip (pnModuleFindIntegerType_noFuel _ _) fun _ => (guides_uint32 h _).bind fun ⟨_, _⟩ h =>
      (guides_uint32 h _).bind fun ⟨_, _⟩ h => (guides_uint32 h _).bind fun ⟨_, _⟩ h => .ok h
  · exact (guides_uint32 h _).bind fun ⟨_, _⟩ h => (guides_uint32 h _).bind fun ⟨_, _⟩ h =>
      (guides_uint32 h _).bind fun ⟨_, _⟩ h => .ok h
  · exact guides_call host module false h
  · exact (guides_uint32 h _).bind fun ⟨_, _⟩ h => (guides_uint32 h _).bind fun ⟨_, _⟩ h =>
      skip .check fun _ => .ok h
  · exact guides_call host module true h
  · exact fatal

/-! ## The records of the blocks -/

/-- The abbreviations that blockinfo defines are the same. -/
def SameAbbrevs (rs rs' : PNReadState) : Prop := rs'.context.blockAbbrevMap = rs.context.blockAbbrevMap

/-- Every rule is kept to the end of every record that the block reader takes. -/
def PNBlockReader.Handles (b : PNBlockReader σ) (rs : σ → PNReadState) (fuel : Nat) : Prop :=
  ∀ {R : FieldRule} {r : PNRecordReader} {s : σ} {code : Nat}, R.Ready fuel r →
    Avoids R.bad (b.record s code r) fun x => R.Ends x.2 ∧ SameAbbrevs (rs s) (rs x.1)

theorem pnBlockinfoBlock_handles : (pnBlockinfoBlock fuel).Handles PNBlockinfoState.rs fuel := by
  intro R r s code h
  unfold pnBlockinfoBlock
  dsimp only
  split
  · exact (guides_uint32 h _).bind fun ⟨_, _⟩ h => avoids_finish h fun _ he => ⟨he, rfl⟩
  · exact avoids_finish h fun _ he => ⟨he, rfl⟩
  · exact avoids_finish h fun _ he => ⟨he, rfl⟩
  · exact fatal

theorem guides_argTypes (module : PNModule) : ∀ (n : Nat) {r : PNRecordReader} (args : List Nat), R.Ready fuel r →
    R.Guides fuel (readArgTypes module n r args) Prod.snd
  | 0, _, _, h => .ok h
  | n + 1, _, _, h => (guides_uint16 h _).bind fun ⟨_, _⟩ h => skip .check fun _ => guides_argTypes module n _ h

theorem basicTypeOfWidth_noFuel (width : Nat) : NoFuel (basicTypeOfWidth width) := by
  unfold basicTypeOfWidth
  split <;> first | exact .ok | exact .fatal

theorem pnTypeBlock_handles : (pnTypeBlock fuel).Handles PNTypeState.rs fuel := by
  intro R r s code h
  unfold pnTypeBlock
  dsimp only
  split
  · exact (guides_uint32 h _).bind fun ⟨_, _⟩ h => avoids_finish h fun _ he => ⟨he, rfl⟩
  · exact skip .check fun _ => avoids_finish h fun _ he => ⟨he, rfl⟩
  · exact skip .check fun _ => avoids_finish h fun _ he => ⟨he, rfl⟩
  · exact skip .check fun _ => avoids_finish h fun _ he => ⟨he, rfl⟩
  · exact skip .check fun _ => (guides_uint32 h _).bind fun ⟨_, _⟩ h => skip (basicTypeOfWidth_noFuel _) fun _ =>
      avoids_finish h fun _ he => ⟨he, rfl⟩
  · exact skip .check fun _ => (guides_uint32 h _).bind fun ⟨_, _⟩ h => (guides_uint32 h _).bind fun ⟨_, _⟩ h =>
      skip .check fun _ => (guides_numValuesLeft h).bind fun ⟨_, _⟩ h =>
      (guides_argTypes _ _ _ h).bind fun ⟨_, _⟩ h => avoids_finish h fun _ he => ⟨he, rfl⟩
  · exact fatal

/-- Every byte of DATA uses up fuel. -/
theorem guides_data : ∀ {fuel : Nat} {r : PNRecordReader} (memory : PNMemory) (dataOffset : Nat), R.Ready fuel r →
    R.Guides fuel (readData fuel r memory dataOffset) (·.2.2)
  | 0, r, _, _, h => .error fun hb => absurd (h.fuel (R.bad_fuel hb ▸ hb)) (Nat.not_lt_zero _)
  | fuel + 1, r, memory, dataOffset, h => by
    refine (avoids_try32 h).bind fun ⟨value, r₁⟩ ⟨h₁, hnext⟩ => ?_
    cases value with
    | none => exact .ok h₁
    | some value =>
      dsimp only
      split
      · exact fatal
      · split
        · exact fatal
        · exact (guides_data _ _ (hnext value rfl)).mono fun _ h => h.mono (Nat.le_succ fuel)

theorem pnMemoryCheck_noFuel (memory : PNMemory) (offset size : Nat) : NoFuel (pnMemoryCheck memory offset size) := by
  unfold pnMemoryCheck
  split
  · exact .fatal
  · split
    · exact .fatal
    · exact .ok

theorem pnGlobalvarWriteReloc_noFuel (module : PNModule) (valueId offset addend : Nat) :
    NoFuel (pnGlobalvarWriteReloc module valueId offset addend) := by
  have hwrite : ∀ value, NoFuel (pnMemoryWrite module.memory 4 offset value) := fun value =>
    (pnMemoryCheck_noFuel _ _ _).bind fun _ _ => .ok
  unfold pnGlobalvarWriteReloc
  split
  · split
    · exact (hwrite _).bind fun _ _ => .ok
    · exact .error nofun
  · exact .bind .check fun _ _ => (hwrite _).bind fun _ _ => .ok
  · exact .fatal

theorem nextInitializer_spec (s : PNGlobalvarState) : Avoids R.bad s.nextInitializer fun s' => SameAbbrevs s.rs s'.rs := by
  unfold PNGlobalvarState.nextInitializer
  split
  · exact error nofun
  · exact skip .check fun _ => .ok rfl

theorem guides_var {s : PNGlobalvarState} (h : R.Ready fuel r) :
    Avoids R.bad (readVar s r) fun x => R.Ready fuel x.2 ∧ SameAbbrevs s.rs x.1.rs :=
  skip .check fun _ => (guides_uint32 h _).bind fun ⟨_, _⟩ h => skip (alignmentOf_noFuel _) fun _ =>
    (guides_uint32 h _).bind fun ⟨_, _⟩ h => skip .check fun _ =>
    skip (pnModuleFindIntegerType_noFuel _ _) fun _ => .ok ⟨h, rfl⟩

theorem guides_reloc {s : PNGlobalvarState} (h : R.Ready fuel r) :
    Avoids R.bad (readReloc s r) fun x => R.Ready fuel x.2 ∧ SameAbbrevs s.rs x.1.rs := by
  refine (nextInitializer_spec s).bind fun s' hs' => (guides_uint32 h _).bind fun ⟨index, r₁⟩ h => ?_
  refine (guides_try32 h).bind fun ⟨addend, r₂⟩ h => ?_
  dsimp only at h ⊢
  split
  · exact skip (pnGlobalvarWriteReloc_noFuel _ _ _ _) fun _ => .ok ⟨h, hs'⟩
  · exact .ok ⟨h, hs'⟩

theorem pnGlobalvarBlock_handles : (pnGlobalvarBlock fuel).Handles PNGlobalvarState.rs fuel := by
  intro R r s code h
  unfold pnGlobalvarBlock
  dsimp only
  split
  · exact (guides_var h).bind fun ⟨_, _⟩ ⟨h, hs⟩ => avoids_finish h fun _ he => ⟨he, hs⟩
  · split
    · exact error nofun
    · exact (guides_uint32 h _).bind fun ⟨_, _⟩ h => avoids_finish h fun _ he => ⟨he, rfl⟩
  · exact (nextInitializer_spec s).bind fun s' hs' => (guides_uint32 h _).bind fun ⟨_, _⟩ h =>
      skip (pnMemoryCheck_noFuel _ _ _) fun _ => avoids_finish h fun _ he => ⟨he, hs'⟩
  · exact (nextInitializer_spec s).bind fun s' hs' => (guides_data _ _ h).bind fun ⟨_, _, _⟩ h =>
      avoids_finish h fun _ he => ⟨he, hs'⟩
  · exact (guides_reloc h).bind fun ⟨_, _⟩ ⟨h, hs⟩ => avoids_finish h fun _ he => ⟨he, hs⟩
  · exact (guides_uint32 h _).bind fun ⟨_, _⟩ h => avoids_finish h fun _ he => ⟨he, rfl⟩
  · exact fatal

theorem guides_name : ∀ (n : Nat) {r : PNRecordReader} (name : List Nat), R.Ready fuel r →
    R.Guides fuel (readName n r name) Prod.snd
  | 0, _, _, h => .ok h
  | n + 1, _, _, h => (guides_uint32 h _).bind fun ⟨_, _⟩ h => guides_name n _ h

theorem nameFunction_noFuel (module : PNModule) (functionId : Nat) (name : Option (List Nat)) :
    NoFuel (nameFunction module functionId name) := by
  unfold nameFunction
  split
  · exact .error nofun
  · split
    · exact .ok
    · exact .ok

theorem guides_symbol {module : PNModule} (h : R.Ready fuel r) : R.Guides fuel (readSymbol fuel module r) Prod.snd := by
  refine (guides_uint32 h _).bind fun ⟨valueId, r₁⟩ h => skip .check fun _ => ?_
  refine (guides_numValuesLeft h).bind fun ⟨len, r₂⟩ h => ?_
  refine (guides_name _ _ h).bind fun ⟨name, r₃⟩ h => ?_
  dsimp only at h ⊢
  split
  · exact skip (nameFunction_noFuel _ _ _) fun _ => .ok h
  · exact .ok h

theorem pnValueSymtabBlock_handles : (pnValueSymtabBlock fuel).Handles id fuel := by
  intro R r s code h
  unfold pnValueSymtabBlock
  dsimp only
  split
  · exact (guides_symbol h).bind fun ⟨_, _⟩ h => avoids_finish h fun _ he => ⟨he, rfl⟩
  · exact avoids_finish h fun _ he => ⟨he, rfl⟩
  · exact fatal

theorem guides_integerConstant {basicType : PNBasicType} (h : R.Ready fuel r) :
    R.Guides fuel (readIntegerConstant basicType r) Prod.snd := by
  cases basicType with
  | int1 => exact (guides_int32 h _).bind fun ⟨_, _⟩ h => .ok h
  | int8 => exact (guides_int32 h _).bind fun ⟨_, _⟩ h => .ok h
  | int16 => exact (guides_int32 h _).bind fun ⟨_, _⟩ h => .ok h
  | int32 => exact (guides_int32 h _).bind fun ⟨_, _⟩ h => .ok h
  | int64 => exact (guides_int64 h _).bind fun ⟨_, _⟩ h => .ok h
  | void => exact error nofun
  | float => exact error nofun
  | double => exact error nofun

theorem guides_floatConstant {basicType : PNBasicType} (h : R.Ready fuel r) :
    R.Guides fuel (readFloatConstant basicType r) Prod.snd := by
  cases basicType with
  | float => exact guides_uint32 h _
  | double => exact guides_uint64 h _
  | _ => exact error nofun

theorem pnConstantsBlock_handles (host : PNHost) : (pnConstantsBlock host fuel).Handles PNConstantsState.rs fuel := by
  intro R r s code h
  unfold pnConstantsBlock
  dsimp only
  split
  · exact (guides_uint32 h _).bind fun ⟨_, _⟩ h => skip .check fun _ => avoids_finish h fun _ he => ⟨he, rfl⟩
  · exact avoids_finish h fun _ he => ⟨he, rfl⟩
  · exact (guides_integerConstant h).bind fun ⟨_, _⟩ h => avoids_finish h fun _ he => ⟨he, rfl⟩
  · exact (guides_floatConstant h).bind fun ⟨_, _⟩ h => avoids_finish h fun _ he => ⟨he, rfl⟩
  · exact fatal

theorem guides_function (host : PNHost) {rs : PNReadState} (h : R.Ready fuel r) :
    Avoids R.bad (readFunction host rs r) fun x => R.Ready fuel x.2 ∧ SameAbbrevs rs x.1 := by
  refine (guides_uint32 h _).bind fun ⟨typeId, r₁⟩ h => skip .check fun _ => ?_
  refine (guides_uint32 h _).bind fun ⟨callingConvention, r₂⟩ h => ?_
  refine (guides_uint32 h _).bind fun ⟨isProto, r₃⟩ h => ?_
  refine (guides_uint32 h _).bind fun ⟨linkage, r₄⟩ h => ?_
  dsimp only at h ⊢
  split
  · exact .ok ⟨h, rfl⟩
  · exact error nofun

theorem pnModuleBlock_handles (host : PNHost) (dedupe : Bool) :
    (pnModuleBlock host dedupe fuel).Handles PNModuleState.rs fuel := by
  intro R r s code h
  unfold pnModuleBlock
  dsimp only
  split
  · exact (guides_uint32 h _).bind fun ⟨_, _⟩ h => avoids_finish h fun _ he => ⟨he, rfl⟩
  · exact (guides_function host h).bind fun ⟨_, _⟩ ⟨h, hs⟩ => avoids_finish h fun _ he => ⟨he, hs⟩
  · exact fatal

theorem beginBb_spec (s : PNFunctionState) : Avoids R.bad s.beginBb fun s' => SameAbbrevs s.rs s'.rs := by
  unfold PNFunctionState.beginBb
  split
  · exact skip .check fun _ => .ok rfl
  · exact .ok rfl

/-- An instruction record of a function block. -/
theorem avoids_functionRecord (host : PNHost) (dedupe : Bool) {s : PNFunctionState} {code : Nat}
    (hc : code ≠ PN_FUNCTION_CODE_DECLAREBLOCKS) (h : R.Ready fuel r) :
    Avoids R.bad ((pnFunctionBlock host dedupe fuel).record s code r) fun x => R.Ends x.2 ∧ SameAbbrevs s.rs x.1.rs := by
  unfold pnFunctionBlock
  dsimp only
  rw [if_neg hc]
  exact (beginBb_spec s).bind fun s' hs' => (guides_instruction host dedupe _ _ h).bind fun _ h =>
    avoids_finish h fun _ he => ⟨he, hs'⟩

end Rule

end Pnacl
