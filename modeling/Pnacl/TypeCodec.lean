import Pnacl.BlockCodec
import Pnacl.BodyTypes

/-!
# Reading a type table undoes writing it

Every table that the reader could leave, with ids in the table and integers of the right widths, has an encoding as a type block,
and the type block reader reads this table back from it (`typeTable_decodes`).
-/

namespace Pnacl

open Lib PNBitStream

/-- The record of a type. -/
def encType : PNType → CodedRecord
  | .unset => (0, [])
  | .void => (2, [])
  | .float => (3, [])
  | .double => (4, [])
  | .integer width _ => (7, [width])
  | .function isVarargs returnType argTypes => (21, isVarargs :: returnType :: argTypes)

/-- The records of a table: NUMENTRY, then one for each type. -/
def encTypes (types : List PNType) : List CodedRecord := (1, [types.length]) :: types.map encType

/-- A table that can be written: it is complete, and its fields are what a record can give. -/
structure TableWritable (types : List PNType) : Prop where
  ok : TypesOk types
  width : ∀ width basicType, .integer width basicType ∈ types → basicTypeOfWidth width = .ok basicType
  varargs : ∀ isVarargs returnType argTypes, .function isVarargs returnType argTypes ∈ types → isVarargs < 2 ^ 8

/-- The fuel is enough for the loops over the records and over the values of each. -/
def FuelFor (fuel : Nat) (rs : List CodedRecord) : Prop := rs.length < fuel ∧ ∀ r ∈ rs, r.2.length < fuel

section

variable {fuel stop : Nat} {s : PNTypeState} {rest : List Bool} {reader : PNRecordReader} {vs : List Nat} {host : PNHost}

theorem basicTypeOfWidth_le {width : Nat} {basicType : PNBasicType} (h : basicTypeOfWidth width = .ok basicType) : width ≤ 64 := by
  unfold basicTypeOfWidth at h
  split at h <;> first | decide | cases h

theorem typeBlock_takes_count (hfuel : 0 < fuel) {n : Nat} (hn : n < 2 ^ 32) :
    (pnTypeBlock fuel).TakesRecord s (1, [n]) (s.announce n) := by
  intro reader stop rest h
  obtain ⟨r₁, h₁, hb₁⟩ := h.readUint32 hn "num types"
  obtain ⟨bs, hf, hg⟩ := hb₁.finish hfuel (s.announce n)
  refine ⟨bs, ?_, hg⟩
  simp only [pnTypeBlock, h₁, ok_bind]
  exact hf

/-- The argument types of a function type. -/
theorem readArgTypes_before {module : PNModule} : ∀ {args : List Nat} {reader : PNRecordReader} (acc : List Nat),
    reader.Before args stop rest → (∀ a ∈ args, a < 2 ^ 16 ∧ a < module.types.length) →
    ∃ r', readArgTypes module args.length reader acc = .ok (acc ++ args, r') ∧ r'.Before [] stop rest
  | [], reader, acc, h, _ => ⟨reader, by rw [List.append_nil]; rfl, h⟩
  | a :: args, reader, acc, h, hargs => by
    obtain ⟨h16, hlt⟩ := hargs a (List.mem_cons_self ..)
    obtain ⟨r₁, h₁, hb₁⟩ := h.readUint16 h16 "arg type"
    obtain ⟨r', hr, hb⟩ := readArgTypes_before (acc ++ [a]) hb₁ fun b hb => hargs b (List.mem_cons_of_mem _ hb)
    refine ⟨r', ?_, hb⟩
    rw [List.length_cons, readArgTypes, h₁, ok_bind]
    dsimp only
    rw [pnTypeIdCheck, toTypeId, Nat.mod_eq_of_lt h16, pnCheck_bind hlt, hr, List.append_assoc]
    rfl

/-- Each type is read back from its record. -/
theorem typeBlock_takes_type {type : PNType} (hcur : s.currentTypeId < s.rs.module.types.length) (hset : type ≠ .unset)
    (hids : ∀ typeId ∈ type.typeIds, typeId < 2 ^ 16 ∧ typeId < s.rs.module.types.length)
    (hwidth : ∀ width basicType, type = .integer width basicType → basicTypeOfWidth width = .ok basicType)
    (hvarargs : ∀ isVarargs returnType argTypes, type = .function isVarargs returnType argTypes → isVarargs < 2 ^ 8)
    (hfuel : (encType type).2.length < fuel) : (pnTypeBlock fuel).TakesRecord s (encType type) (s.fill type) := by
  intro reader stop rest h
  have hpos : 0 < fuel := by omega
  have hcheck : s.check = .ok () := require_pos hcur _
  cases type with
  | unset => exact absurd rfl hset
  | void =>
    obtain ⟨bs, hf, hg⟩ := PNRecordReader.Before.finish h hpos (s.fill .void)
    exact ⟨bs, by simp only [pnTypeBlock, encType, hcheck, ok_bind, hf], hg⟩
  | float =>
    obtain ⟨bs, hf, hg⟩ := PNRecordReader.Before.finish h hpos (s.fill .float)
    exact ⟨bs, by simp only [pnTypeBlock, encType, hcheck, ok_bind, hf], hg⟩
  | double =>
    obtain ⟨bs, hf, hg⟩ := PNRecordReader.Before.finish h hpos (s.fill .double)
    exact ⟨bs, by simp only [pnTypeBlock, encType, hcheck, ok_bind, hf], hg⟩
  | integer width basicType =>
    have hle := basicTypeOfWidth_le (hwidth width basicType rfl)
    obtain ⟨r₁, h₁, hb₁⟩ := PNRecordReader.Before.readUint32 h (show width < 2 ^ 32 by omega) "width"
    obtain ⟨bs, hf, hg⟩ := hb₁.finish hpos (s.fill (.integer width basicType))
    refine ⟨bs, ?_, hg⟩
    simp only [pnTypeBlock, encType, hcheck, h₁, ok_bind, hwidth width basicType rfl, hf]
  | function isVarargs returnType argTypes =>
    obtain ⟨hret, hretlt⟩ := hids returnType (List.mem_cons_self ..)
    have hbyte := hvarargs isVarargs returnType argTypes rfl
    obtain ⟨r₁, h₁, hb₁⟩ := PNRecordReader.Before.readUint32 h (show isVarargs < 2 ^ 32 by omega) "is_varargs"
    obtain ⟨r₂, h₂, hb₂⟩ := hb₁.readUint32 (Nat.lt_trans hret (by decide)) "return_type"
    have hargs : ∀ a ∈ argTypes, a < 2 ^ 16 ∧ a < s.rs.module.types.length := fun a ha => hids a (List.mem_cons_of_mem _ ha)
    simp only [encType, List.length_cons] at hfuel
    obtain ⟨r₃, h₃, hb₃⟩ := hb₂.numValuesLeft (fun a ha => Nat.lt_trans (hargs a ha).1 (by decide))
      (show argTypes.length < fuel by omega)
    obtain ⟨r₄, h₄, hb₄⟩ := readArgTypes_before [] hb₃ hargs
    obtain ⟨bs, hf, hg⟩ := hb₄.finish hpos (s.fill (.function isVarargs returnType argTypes))
    refine ⟨bs, ?_, hg⟩
    have hcheckRet : pnTypeIdCheck s.rs.module returnType = .ok () := by
      rw [pnTypeIdCheck, toTypeId, Nat.mod_eq_of_lt hret]
      exact require_pos hretlt _
    simp only [pnTypeBlock, encType, hcheck, h₁, h₂, hcheckRet, h₃, h₄, ok_bind, List.nil_append]
    rw [Nat.mod_eq_of_lt (hvarargs isVarargs returnType argTypes rfl), toTypeId, Nat.mod_eq_of_lt hret, hf]

theorem encType_code_lt (type : PNType) : (encType type).1 < 2 ^ 32 := by
  cases type <;> exact of_decide_eq_true rfl

/-- One type after the other fills the table. -/
theorem typeBlock_takes_types : ∀ (todo done : List PNType) {s : PNTypeState}, TableWritable (done ++ todo) →
    s.rs.module.types = done ++ List.replicate todo.length .unset → s.currentTypeId = done.length →
    (∀ r ∈ todo.map encType, r.2.length < fuel) →
    (pnTypeBlock fuel).Takes s (todo.map encType)
      ⟨{ s.rs with module := { s.rs.module with types := done ++ todo } }, (done ++ todo).length⟩
  | [], done, s, _, ht, hc, _ => by
    rw [List.length_nil, List.replicate_zero] at ht
    have hlen : (done ++ []).length = s.currentTypeId := by rw [List.append_nil, hc]
    rw [hlen, ← ht]
    exact .nil s
  | type :: todo, done, s, hw, ht, hc, hfuel => by
    have hlen : s.rs.module.types.length = (done ++ type :: todo).length := by
      rw [ht, List.length_append, List.length_append, List.length_replicate]
    have hmem : type ∈ done ++ type :: todo := List.mem_append_right _ (List.mem_cons_self ..)
    have hsmall := hw.ok.small
    have hids : ∀ typeId ∈ type.typeIds, typeId < 2 ^ 16 := fun typeId hid =>
      Nat.lt_trans (hw.ok.ids type hmem typeId hid) hsmall
    have hwidth : ∀ width basicType, type = .integer width basicType → basicTypeOfWidth width = .ok basicType :=
      fun width basicType heq => hw.width width basicType (heq ▸ hmem)
    have hvarargs : ∀ isVarargs returnType argTypes, type = .function isVarargs returnType argTypes → isVarargs < 2 ^ 8 :=
      fun isVarargs returnType argTypes heq => hw.varargs isVarargs returnType argTypes (heq ▸ hmem)
    have htake : (pnTypeBlock fuel).TakesRecord s (encType type) (s.fill type) := by
      refine typeBlock_takes_type ?_ (hw.ok.filled type hmem) ?_ hwidth hvarargs (hfuel _ (List.mem_cons_self ..))
      · rw [hlen, hc, List.length_append, List.length_cons]
        omega
      · intro typeId hid
        rw [hlen]
        exact ⟨hids typeId hid, hw.ok.ids type hmem typeId hid⟩
    have hset : (s.fill type).rs.module.types = done ++ [type] ++ List.replicate todo.length .unset := by
      simp only [PNTypeState.fill, ht, hc, List.length_cons, List.replicate_succ]
      simp
    have hnext : (s.fill type).currentTypeId = (done ++ [type]).length := by
      rw [List.length_append, List.length_cons] at hsmall
      rw [PNTypeState.fill, toTypeId, hc, List.length_append, List.length_singleton]
      exact Nat.mod_eq_of_lt (by omega)
    have heq : done ++ [type] ++ todo = done ++ type :: todo := by rw [List.append_assoc, List.singleton_append]
    have hrest := typeBlock_takes_types todo (done ++ [type]) (heq ▸ hw) hset hnext fun r hr => hfuel r (List.mem_cons_of_mem _ hr)
    rw [heq] at hrest
    exact .cons (encType_code_lt type) htake hrest

/-- The records of a table, with the count in front. -/
theorem typeBlock_takes {types : List PNType} {rs : PNReadState} (hw : TableWritable types)
    (hfuel : FuelFor fuel (encTypes types)) :
    (pnTypeBlock fuel).Takes ⟨rs, 0⟩ (encTypes types)
      ⟨{ rs with
        module := { rs.module with types := types }
        trace := rs.trace ++ [.typeNumEntries types.length] }, types.length⟩ := by
  have hsmall := hw.ok.small
  have hpos : 0 < fuel := Nat.lt_of_le_of_lt (Nat.zero_le _) hfuel.1
  exact .cons (show 1 < 2 ^ 32 by decide) (typeBlock_takes_count hpos (Nat.lt_trans hsmall (by decide)))
    (typeBlock_takes_types types [] hw rfl rfl fun r hr => hfuel.2 r (List.mem_cons_of_mem _ hr))

/-- A type block behind its id. -/
def encTypeBlock (offset width words : Nat) (types : List PNType) : List Bool :=
  encBlock offset width words ((encTypes types).flatMap (encRecord width))

/-- **Reading a type block undoes writing it**: whatever the module had before, the table is the one that was written, and the
stream goes on behind the block. -/
theorem typeTable_decodes {types : List PNType} {rs : PNReadState} {bs : PNBitStream} {width words : Nat}
    (hw : TableWritable types) (hwidth : 2 ≤ width) (hle : width ≤ 32) (hwords : words < 2 ^ 32)
    (hfuel : FuelFor fuel (encTypes types)) (h : bs.GoesOn stop (encTypeBlock stop width words types ++ rest)) :
    ∃ bs', pnTypeBlockRead host fuel rs bs =
        .ok ({ rs with
          module := { rs.module with types := types }
          trace := rs.trace ++ [.typeNumEntries types.length] }, bs') ∧
      bs'.GoesOn (stop + (encTypeBlock stop width words types).length) rest := by
  obtain ⟨bs', hr, hg⟩ := readBlock_aligned hwidth hle hwords ((typeBlock_takes hw hfuel).reads hwidth hle) hfuel.1
    (fun b => pnCheck_bind rfl) h
  refine ⟨bs', ?_, hg⟩
  rw [pnTypeBlockRead, hr]
  rfl

end

/-- i32, void, and the function type void(i32, i32). -/
def writtenTypes : List PNType := [.integer 32 .int32, .void, .function 0 1 [0, 0]]

theorem writtenTypes_writable : TableWritable writtenTypes := by
  refine ⟨⟨by decide, by decide, by decide⟩, ?_, ?_⟩
  · intro width basicType h
    simp only [writtenTypes, List.mem_cons, PNType.integer.injEq, reduceCtorEq, List.not_mem_nil, or_false] at h
    obtain ⟨rfl, rfl⟩ := h
    rfl
  · intro isVarargs returnType argTypes h
    simp only [writtenTypes, List.mem_cons, PNType.function.injEq, reduceCtorEq, List.not_mem_nil, false_or, or_false] at h
    rw [h.1]
    decide

theorem typeTable_decodes_written : ∃ bs', pnTypeBlockRead zeroHost 6 ⟨pnModuleInit ⟨fun _ => 0, 2 ^ 16⟩, {}, []⟩
    (fileOf (encTypeBlock 0 4 3 writtenTypes ++ [])) = .ok (⟨{ pnModuleInit ⟨fun _ => 0, 2 ^ 16⟩ with types := writtenTypes }, {},
      [.typeNumEntries 3]⟩, bs') ∧ bs'.GoesOn (0 + (encTypeBlock 0 4 3 writtenTypes).length) [] :=
  typeTable_decodes writtenTypes_writable (by decide) (by decide) (by decide) ⟨by decide, by decide⟩
    (fileOf_goesOn (by decide +kernel))

end Pnacl
