import Mathlib.Data.List.Nodup
import Pnacl.InstructionRecords

/-!
# Deduplication of phi entries

The loop of a PHI record decodes an entry, looks its block up among those that it has, and keeps it, drops it or exits. The
search is over a list that grows, so the invariant is about the entries kept so far and those to come: they conflict as the
whole record does, and what is kept in the end is the first occurrence of each (`readIncoming_dedupe`).
-/

namespace Pnacl

open Lib

/-- An entry as it stands in the record: the value, sign-rotated if ids are relative, and the block. -/
def decodedIncoming (useRelativeIds : Bool) (relId : Nat) (entry : Nat × Nat) : PNPhiIncoming where
  bbId := entry.2
  valueId := absoluteId useRelativeIds relId (if useRelativeIds then pnDecodeSignRotatedValue entry.1 else entry.1)

/-- Two entries for one block have different values. -/
def Conflicting (incoming : List PNPhiIncoming) : Prop :=
  ∃ i ∈ incoming, ∃ j ∈ incoming, i.bbId = j.bbId ∧ i.valueId ≠ j.valueId

/-- The exit for such entries. -/
def PhiConflict {α : Type} (x : Except Stop α) : Prop :=
  ∃ bb value value', x = pnFatal "phi duplicated with matching bb %d but different values %d != %d\n" [bb, value, value']

/-! ## The values of the record, two by two -/

section Values

variable {fuel : Nat} {r q : PNRecordReader} {vs : List Nat}

theorem tryRead_of_readValues_nil (h : readValues fuel r = .ok ([], q)) : pnRecordTryReadUint32 r = .ok (none, q) := by
  cases fuel with
  | zero => cases h
  | succ fuel =>
    obtain ⟨⟨o, r₁⟩, ho, h⟩ := bind_eq_ok.mp h
    cases o with
    | none =>
      cases h
      exact ho
    | some v =>
      obtain ⟨⟨vs, r₂⟩, -, h⟩ := bind_eq_ok.mp h
      cases h

theorem tryRead_of_readValues_cons {v : Nat} (h : readValues fuel r = .ok (v :: vs, q)) :
    ∃ fuel' r₁, pnRecordTryReadUint32 r = .ok (some v, r₁) ∧ readValues fuel' r₁ = .ok (vs, q) := by
  cases fuel with
  | zero => cases h
  | succ fuel =>
    obtain ⟨⟨o, r₁⟩, ho, h⟩ := bind_eq_ok.mp h
    cases o with
    | none => cases h
    | some w =>
      obtain ⟨⟨ws, r₂⟩, hws, h⟩ := bind_eq_ok.mp h
      cases h
      exact ⟨fuel, r₁, ho, hws⟩

theorem tryReadUint16_of_le {v : Nat} (h : pnRecordTryReadUint32 r = .ok (some v, q)) (hv : v < 2 ^ 16) :
    pnRecordTryReadUint16 r = .ok (some v, q) := by
  rw [pnRecordTryReadUint16, h, ok_bind]
  exact if_neg (by omega)

end Values

/-! ## Kept entries -/

section Kept

variable {kept rest : List PNPhiIncoming} {i : PNPhiIncoming}

theorem not_conflicting_of_nodup (h : (kept.map PNPhiIncoming.bbId).Nodup) : ¬Conflicting kept := by
  rintro ⟨i, hi, j, hj, hbb, hne⟩
  exact hne (congrArg _ (List.inj_on_of_nodup_map h hi hj hbb))

theorem conflicting_congr {l l' : List PNPhiIncoming} (h : ∀ i, i ∈ l ↔ i ∈ l') : Conflicting l ↔ Conflicting l' := by
  simp only [Conflicting, h]

/-- An entry that is kept already changes nothing. -/
theorem mem_append_cons (h : i ∈ kept) (j : PNPhiIncoming) : j ∈ kept ++ i :: rest ↔ j ∈ kept ++ rest := by
  constructor
  · intro hj
    rcases List.mem_append.mp hj with hj | hj
    · exact List.mem_append_left _ hj
    · rcases List.mem_cons.mp hj with rfl | hj
      · exact List.mem_append_left _ h
      · exact List.mem_append_right _ hj
  · intro hj
    rcases List.mem_append.mp hj with hj | hj
    · exact List.mem_append_left _ hj
    · exact List.mem_append_right _ (List.mem_cons_of_mem _ hj)

theorem eraseDups_append_cons (h : i ∈ kept) : (kept ++ i :: rest).eraseDups = (kept ++ rest).eraseDups := by
  have hmem : ¬kept.contains i = false := by simpa using h
  rw [List.eraseDups_append, List.eraseDups_append, List.cons_removeAll, if_neg hmem]

/-- The first occurrences in a list without repeats are all. -/
theorem eraseDups_of_nodup : ∀ {l : List PNPhiIncoming}, l.Nodup → l.eraseDups = l
  | [], _ => rfl
  | i :: l, h => by
    obtain ⟨hi, hl⟩ := List.nodup_cons.mp h
    have hfilter : (l.filter fun j => !j == i) = l := by
      rw [List.filter_eq_self]
      intro j hj
      have hne : j ≠ i := fun heq => hi (heq ▸ hj)
      simpa using hne
    rw [List.eraseDups_cons, hfilter, eraseDups_of_nodup hl]

end Kept

/-! ## The loop -/

section Loop

variable {useRelativeIds : Bool} {relId : Nat} {q : PNRecordReader}

/-- One turn of the loop, with the entry decoded. -/
theorem readIncoming_entry {fuel : Nat} {r r₁ r₂ : PNRecordReader} {value bb : Nat} (dedupe : Bool) (kept : List PNPhiIncoming)
    (hvalue : pnRecordTryReadUint32 r = .ok (some value, r₁)) (hbb : pnRecordTryReadUint16 r₁ = .ok (some bb, r₂)) :
    readIncoming dedupe useRelativeIds relId (fuel + 1) r kept =
      match if dedupe then kept.find? (fun i => i.bbId = bb) else none with
      | some i =>
        if i.valueId = (decodedIncoming useRelativeIds relId (value, bb)).valueId then
          readIncoming dedupe useRelativeIds relId fuel r₂ kept
        else pnFatal "phi duplicated with matching bb %d but different values %d != %d\n"
          [bb, i.valueId, (decodedIncoming useRelativeIds relId (value, bb)).valueId]
      | none => readIncoming dedupe useRelativeIds relId fuel r₂ (kept ++ [decodedIncoming useRelativeIds relId (value, bb)]) := by
  rw [readIncoming, hvalue, ok_bind]
  dsimp only
  rw [hbb, ok_bind]
  rfl

/-- Without deduplication every entry is kept. -/
theorem readIncoming_all : ∀ {entries : List (Nat × Nat)} {fuel m : Nat} {r : PNRecordReader} {kept : List PNPhiIncoming},
    readValues m r = .ok (entries.flatMap fun e => [e.1, e.2], q) → (∀ e ∈ entries, e.2 < 2 ^ 16) → entries.length < fuel →
    readIncoming false useRelativeIds relId fuel r kept =
      .ok (kept ++ entries.map (decodedIncoming useRelativeIds relId), q)
  | _, 0, _, _, _, _, _, hfuel => by cases hfuel
  | [], fuel + 1, _, _, _, h, _, _ => by
    rw [readIncoming, tryRead_of_readValues_nil h, ok_bind]
    simp
  | (value, bb) :: entries, fuel + 1, _, _, kept, h, hbb, hfuel => by
    obtain ⟨m₁, r₁, hvalue, h⟩ := tryRead_of_readValues_cons h
    obtain ⟨m₂, r₂, hblock, h⟩ := tryRead_of_readValues_cons h
    obtain ⟨hb, hbb⟩ := List.forall_mem_cons.mp hbb
    rw [readIncoming_entry false _ hvalue (tryReadUint16_of_le hblock hb)]
    have hrest : readIncoming false useRelativeIds relId fuel r₂ (kept ++ [decodedIncoming useRelativeIds relId (value, bb)]) =
        .ok (kept ++ [decodedIncoming useRelativeIds relId (value, bb)] ++ entries.map (decodedIncoming useRelativeIds relId), q) :=
      readIncoming_all h hbb (Nat.lt_of_succ_lt_succ hfuel)
    rwa [List.append_assoc, List.singleton_append] at hrest

/-- **With deduplication the first occurrence of each entry is kept**, unless the entries conflict. The induction is on the
entries to come; those kept have different blocks. -/
theorem readIncoming_dedupe : ∀ {entries : List (Nat × Nat)} {fuel m : Nat} {r : PNRecordReader} {kept : List PNPhiIncoming},
    readValues m r = .ok (entries.flatMap fun e => [e.1, e.2], q) → (∀ e ∈ entries, e.2 < 2 ^ 16) → entries.length < fuel →
    (kept.map PNPhiIncoming.bbId).Nodup →
    (PhiConflict (readIncoming true useRelativeIds relId fuel r kept) ∧
        Conflicting (kept ++ entries.map (decodedIncoming useRelativeIds relId))) ∨
      (¬Conflicting (kept ++ entries.map (decodedIncoming useRelativeIds relId)) ∧
        readIncoming true useRelativeIds relId fuel r kept =
          .ok ((kept ++ entries.map (decodedIncoming useRelativeIds relId)).eraseDups, q))
  | _, 0, _, _, _, _, _, hfuel, _ => by cases hfuel
  | [], fuel + 1, _, _, kept, h, _, _, hkept => by
    right
    rw [List.map_nil, List.append_nil, eraseDups_of_nodup hkept.of_map, readIncoming, tryRead_of_readValues_nil h, ok_bind]
    exact ⟨not_conflicting_of_nodup hkept, rfl⟩
  | (value, bb) :: entries, fuel + 1, _, _, kept, h, hbb, hfuel, hkept => by
    obtain ⟨m₁, r₁, hvalue, h⟩ := tryRead_of_readValues_cons h
    obtain ⟨m₂, r₂, hblock, h⟩ := tryRead_of_readValues_cons h
    obtain ⟨hb, hbb⟩ := List.forall_mem_cons.mp hbb
    have hfuel := Nat.lt_of_succ_lt_succ hfuel
    rw [readIncoming_entry true _ hvalue (tryReadUint16_of_le hblock hb), if_pos rfl, List.map_cons]
    generalize hd : decodedIncoming useRelativeIds relId (value, bb) = d
    have hdb : d.bbId = bb := by rw [← hd]; rfl
    cases hfind : kept.find? fun i => i.bbId = bb with
    | none =>
      -- the block is new
      have hnew : ∀ i ∈ kept, i.bbId ≠ bb := by simpa using List.find?_eq_none.mp hfind
      have hkept' : ((kept ++ [d]).map PNPhiIncoming.bbId).Nodup := by
        rw [List.map_append, List.map_singleton, List.nodup_append]
        refine ⟨hkept, List.nodup_singleton _, ?_⟩
        intro a ha b hb'
        obtain ⟨i, hi, rfl⟩ := List.mem_map.mp ha
        rw [List.mem_singleton.mp hb', hdb]
        exact hnew i hi
      have hrest := readIncoming_dedupe h hbb hfuel hkept'
      rwa [List.append_assoc, List.singleton_append] at hrest
    | some i =>
      have hi : i ∈ kept := List.mem_of_find?_eq_some hfind
      have hib : i.bbId = bb := by simpa using List.find?_some hfind
      dsimp only
      split
      · rename_i hsame
        -- the entry is there already
        obtain rfl : i = d := by
          cases i
          cases d
          simp_all
        rw [conflicting_congr (mem_append_cons hi), eraseDups_append_cons hi]
        exact readIncoming_dedupe h hbb hfuel hkept
      · rename_i hother
        left
        refine ⟨⟨bb, i.valueId, d.valueId, rfl⟩, i, List.mem_append_left _ hi, d, ?_, hib.trans hdb.symm, hother⟩
        exact List.mem_append_right _ (List.mem_cons_self ..)

end Loop

/-! ## The record -/

/-- The instruction and the value of a PHI record. -/
def phiRecord (relId typeId : Nat) (incoming : List PNPhiIncoming) (reader : PNRecordReader) : PNInstructionRecord where
  instruction := .phi relId typeId incoming
  value := some ⟨.localVar, typeId⟩
  reader := reader

section Phi

variable {fuel : Nat} {module : PNModule} {useRelativeIds : Bool} {relId typeId : Nat} {reader r : PNRecordReader}

theorem readPhi_eq (dedupe : Bool) (htype : pnRecordReadUint32 reader "type_id" = .ok (typeId, r))
    (hcheck : toTypeId typeId < module.types.length) :
    readPhi dedupe fuel module useRelativeIds relId reader =
      (readIncoming dedupe useRelativeIds relId fuel r []).map fun x => phiRecord relId (toTypeId typeId) x.1 x.2 := by
  rw [readPhi, htype, ok_bind]
  dsimp only
  rw [pnTypeIdCheck, pnCheck_bind hcheck]
  cases readIncoming dedupe useRelativeIds relId fuel r [] <;> rfl

/-- In a list without conflicts whatever is found for the block of an entry is the entry. -/
theorem find?_of_not_conflicting {incoming : List PNPhiIncoming} {i : PNPhiIncoming} (h : ¬Conflicting incoming)
    (hi : i ∈ incoming) : incoming.find? (fun j => j.bbId = i.bbId) = some i := by
  cases hfind : incoming.find? fun j => j.bbId = i.bbId with
  | none =>
    have hnone := List.find?_eq_none.mp hfind i hi
    simp at hnone
  | some j =>
    have hbb : j.bbId = i.bbId := by simpa using List.find?_some hfind
    have hvalue : j.valueId = i.valueId := by
      by_contra hne
      exact h ⟨j, List.mem_of_find?_eq_some hfind, i, hi, hbb, hne⟩
    cases i
    cases j
    simp_all

end Phi

/-- **Deduplication is exact**: the record is refused if and only if two entries for one block have different values. Otherwise
the first occurrence of each entry is kept, the blocks are different, and a block is looked up as in the list of all entries. -/
theorem phi_dedupe_exact (module : PNModule) (useRelativeIds : Bool) (relId typeId fuel m : Nat) (reader r q : PNRecordReader)
    (entries : List (Nat × Nat)) (htype : pnRecordReadUint32 reader "type_id" = .ok (typeId, r))
    (hcheck : toTypeId typeId < module.types.length) (hentries : readValues m r = .ok (entries.flatMap fun e => [e.1, e.2], q))
    (hbb : ∀ e ∈ entries, e.2 < 2 ^ 16) (hfuel : entries.length < fuel) :
    let decoded := entries.map (decodedIncoming useRelativeIds relId)
    readPhi false fuel module useRelativeIds relId reader = .ok (phiRecord relId (toTypeId typeId) decoded q) ∧
      (PhiConflict (readPhi true fuel module useRelativeIds relId reader) ↔ Conflicting decoded) ∧
      (¬Conflicting decoded → ∃ incoming,
        readPhi true fuel module useRelativeIds relId reader = .ok (phiRecord relId (toTypeId typeId) incoming q) ∧
          incoming = decoded.eraseDups ∧ (incoming.map PNPhiIncoming.bbId).Nodup ∧ (∀ i, i ∈ incoming ↔ i ∈ decoded) ∧
          ∀ i ∈ decoded, incoming.find? (fun j => j.bbId = i.bbId) = some i) := by
  intro decoded
  have hall : readIncoming false useRelativeIds relId fuel r [] = .ok (decoded, q) := readIncoming_all hentries hbb hfuel
  have hone : (PhiConflict (readIncoming true useRelativeIds relId fuel r []) ∧ Conflicting decoded) ∨
      (¬Conflicting decoded ∧ readIncoming true useRelativeIds relId fuel r [] = .ok (decoded.eraseDups, q)) :=
    readIncoming_dedupe hentries hbb hfuel (@List.nodup_nil Nat)
  rw [readPhi_eq false htype hcheck, readPhi_eq true htype hcheck, hall]
  refine ⟨rfl, ?_, ?_⟩
  · rcases hone with ⟨⟨bb, value, value', hstop⟩, hconflict⟩ | ⟨hconflict, hok⟩
    · rw [hstop]
      exact iff_of_true ⟨bb, value, value', rfl⟩ hconflict
    · rw [hok]
      refine iff_of_false ?_ hconflict
      rintro ⟨bb, value, value', hstop⟩
      cases hstop
  · intro hconflict
    obtain ⟨-, hok⟩ := hone.resolve_left fun h => hconflict h.2
    have hmem : ∀ i, i ∈ decoded.eraseDups ↔ i ∈ decoded := fun i => List.mem_eraseDups
    rw [hok]
    refine ⟨_, rfl, rfl, readIncoming_nodup (by simp) hok, hmem, ?_⟩
    intro i hi
    exact find?_of_not_conflicting ((conflicting_congr hmem).not.mpr hconflict) ((hmem i).mpr hi)

/-- A record with type id 0 and the entries (2, block 0), (4, block 1), (2, block 0), behind its code. -/
def repeatedEntry : PNRecordReader where
  bs := pnBitstreamInit (fun i => [0x80, 0x00, 0x10, 0x81, 0x00, 0x00, 0x00, 0x00].getD i 0) 8
  abbrevs := []
  entry := pnEntryUnabbrevRecord
  opIndex := 0
  numValues := 7
  valueIndex := 0

def demoPhis : PNModule := { pnModuleInit ⟨fun _ => 0, 2 ^ 16⟩ with types := [.integer 32 .int32] }

/-- With relative ids, at value 10: the third entry is dropped. -/
theorem phi_dedupe_exact_repeated :
    ∃ q, readPhi true 8 demoPhis true 10 repeatedEntry = .ok (phiRecord 10 0 [⟨0, 9⟩, ⟨1, 8⟩] q) := by
  have htype : (pnRecordReadUint32 repeatedEntry "type_id").toOption.map Prod.fst = some 0 := by decide +kernel
  obtain ⟨⟨typeId, r⟩, htype, rfl⟩ := eq_ok_of_toOption htype
  have hvalues : (pnRecordReadUint32 repeatedEntry "type_id" >>= fun x => readValues 8 x.2).toOption.map Prod.fst =
      some ([(2, 0), (4, 1), (2, 0)].flatMap fun e : Nat × Nat => [e.1, e.2]) := by decide +kernel
  obtain ⟨⟨vs, q⟩, hvalues, hvs⟩ := eq_ok_of_toOption hvalues
  rw [htype, ok_bind, show vs = _ from hvs] at hvalues
  obtain ⟨-, -, hkept⟩ :=
    phi_dedupe_exact demoPhis true 10 0 8 8 repeatedEntry r q _ htype (by decide) hvalues (by decide) (by decide)
  have hconflict : ¬Conflicting ([(2, 0), (4, 1), (2, 0)].map (decodedIncoming true 10)) := by
    simp [Conflicting, decodedIncoming]
  obtain ⟨incoming, hok, rfl, -⟩ := hkept hconflict
  exact ⟨q, hok⟩

end Pnacl
