import Pnacl.BlockFrames
import Pnacl.Lib.Placement

/-!
# Global variables

What a globalvar block announces, as the list of its records, and the image that it asks for: the variables one behind the
other, each at a multiple of its alignment, and in each the bytes of its initializers (`LaidOut`). The block reader builds
this image (`globalvars_laid_out`).

A relocation is written as soon as its target is known. What carries the proof is that every initializer is in place already
or is a relocation that waits for the end of the block, and that no two of them share a byte (`GlobalvarInv`).
-/

namespace Pnacl

open Lib

/-! ## The records of a block -/

/-- The records that fill a variable. -/
inductive PNInitializer where
  | zerofill (numBytes : Nat)
  | data (bytes : List Nat)
  | reloc (index addend : Nat)
deriving Repr, DecidableEq

/-- The records of a globalvar block. -/
inductive PNGlobalvarRecord where
  | var (alignment isConstant : Nat)
  | compound (numInitializers : Nat)
  | initializer (init : PNInitializer)
  | count (numGlobalVars : Nat)
deriving Repr, DecidableEq

/-- The record announces a number of variables. -/
def PNGlobalvarRecord.IsCount : PNGlobalvarRecord → Prop
  | .count _ => True
  | .var _ _ | .compound _ | .initializer _ => False

instance : DecidablePred PNGlobalvarRecord.IsCount
  | .count _ => .isTrue trivial
  | .var _ _ | .compound _ | .initializer _ => .isFalse id

/-- The bytes that an initializer takes. -/
def PNInitializer.size : PNInitializer → Nat
  | .zerofill numBytes => numBytes
  | .data bytes => bytes.length
  | .reloc _ _ => 4

/-- A variable as the block announces it. The field of a VAR record is the logarithm of the alignment plus one. -/
structure GlobalVarDecl where
  alignField : Nat
  initializers : List PNInitializer
deriving Repr, DecidableEq

def GlobalVarDecl.alignment (d : GlobalVarDecl) : Nat := 2 ^ (d.alignField - 1)

def GlobalVarDecl.size (d : GlobalVarDecl) : Nat := (d.initializers.map PNInitializer.size).sum

/-- An initializer belongs to the last variable. -/
def addInitializer (init : PNInitializer) : List GlobalVarDecl → List GlobalVarDecl
  | [] => []
  | [d] => [{ d with initializers := d.initializers ++ [init] }]
  | d :: ds => d :: addInitializer init ds

def addRecord (ds : List GlobalVarDecl) : PNGlobalvarRecord → List GlobalVarDecl
  | .var alignment _ => ds ++ [⟨alignment, []⟩]
  | .initializer init => addInitializer init ds
  | .compound _ | .count _ => ds

/-- The variables of a block, each with its initializers. -/
def declarations (records : List PNGlobalvarRecord) : List GlobalVarDecl := records.foldl addRecord []

/-- Where the last variable ends, if the first one begins behind the guard. -/
def declsEnd (ds : List GlobalVarDecl) : Nat := placeEnd GlobalVarDecl.alignment GlobalVarDecl.size PN_MEMORY_GUARD_SIZE ds

/-- What a relocation stands for: the address of a variable with an offset, or the pointer of a function. -/
def relocValue (module : PNModule) (index addend : Nat) : Option Nat :=
  match module.values[index]?.map PNValue.code with
  | some (.globalVar id) => module.globalVars[id]?.join.map fun var => (var.offset + addend) % 2 ^ 32
  | some (.function id) => some (pnFunctionIdToPointer id)
  | _ => none

/-- What the module's memory holds at `a` is what the initializer asks for. -/
def PNInitializer.Holds (module : PNModule) (a : Nat) : PNInitializer → Prop
  | .zerofill numBytes => ∀ k < numBytes, module.memory.data (a + k) = 0
  | .data bytes => ∀ k b, bytes[k]? = some b → b < 2 ^ 8 ∧ module.memory.data (a + k) = UInt8.ofNat b
  | .reloc index addend => relocValue module index addend = some (loadBytes module.memory.data a 4)

theorem GlobalVarDecl.alignment_pos (d : GlobalVarDecl) : 0 < d.alignment := Nat.two_pow_pos _

/-- The variables with their offsets. -/
def placeDecls (ds : List GlobalVarDecl) : List (Nat × GlobalVarDecl) :=
  place GlobalVarDecl.alignment GlobalVarDecl.size PN_MEMORY_GUARD_SIZE ds

/-- The initializers of a variable at `o`, with their offsets. -/
def GlobalVarDecl.places (o : Nat) (d : GlobalVarDecl) : List (Nat × PNInitializer) :=
  place (fun _ => 1) PNInitializer.size o d.initializers

/-- All initializers with their offsets. -/
def placeInitializers (ds : List GlobalVarDecl) : List (Nat × PNInitializer) :=
  (placeDecls ds).flatMap fun p => p.2.places p.1

/-- Initializers lie one directly behind the other. -/
theorem placeEnd_initializers (o : Nat) (is : List PNInitializer) :
    placeEnd (fun _ => 1) PNInitializer.size o is = o + (is.map PNInitializer.size).sum := by
  induction is generalizing o with
  | nil => rfl
  | cons i is ih =>
    rw [placeEnd, ih, roundUp_one, List.map_cons, List.sum_cons, Nat.add_assoc]

theorem addInitializer_append (init : PNInitializer) (ds : List GlobalVarDecl) (d : GlobalVarDecl) :
    addInitializer init (ds ++ [d]) = ds ++ [{ d with initializers := d.initializers ++ [init] }] := by
  induction ds with
  | nil => rfl
  | cons d' ds ih =>
    cases ds with
    | nil => rfl
    | cons d'' ds => exact congrArg (d' :: ·) ih

theorem declarations_append (records : List PNGlobalvarRecord) (r : PNGlobalvarRecord) :
    declarations (records ++ [r]) = addRecord (declarations records) r := by
  simp [declarations, List.foldl_append]

variable {ds : List GlobalVarDecl} {d : GlobalVarDecl} {init : PNInitializer}

theorem size_addInitializer : ({ d with initializers := d.initializers ++ [init] } : GlobalVarDecl).size = d.size + init.size := by
  simp [GlobalVarDecl.size]

theorem declsEnd_append : declsEnd (ds ++ [d]) = roundUp (declsEnd ds) d.alignment + d.size := by
  rw [declsEnd, placeEnd_append]
  rfl

theorem placeDecls_append : placeDecls (ds ++ [d]) = placeDecls ds ++ [(roundUp (declsEnd ds) d.alignment, d)] := by
  rw [placeDecls, place_append]
  rfl

theorem placeInitializers_append :
    placeInitializers (ds ++ [d]) = placeInitializers ds ++ d.places (roundUp (declsEnd ds) d.alignment) := by
  simp [placeInitializers, placeDecls_append]

/-- A new initializer lies at the end. -/
theorem places_addInitializer (o : Nat) :
    ({ d with initializers := d.initializers ++ [init] } : GlobalVarDecl).places o = d.places o ++ [(o + d.size, init)] := by
  unfold GlobalVarDecl.places
  rw [place_append, placeEnd_initializers]
  simp [place, GlobalVarDecl.size]

theorem declsEnd_addInitializer (h : ds ≠ []) : declsEnd (addInitializer init ds) = declsEnd ds + init.size := by
  obtain ⟨ds, d, rfl⟩ : ∃ ds' d, ds = ds' ++ [d] := ⟨_, _, (List.dropLast_concat_getLast h).symm⟩
  rw [addInitializer_append, declsEnd_append, declsEnd_append, size_addInitializer, Nat.add_assoc]
  rfl

theorem placeInitializers_addInitializer (h : ds ≠ []) :
    placeInitializers (addInitializer init ds) = placeInitializers ds ++ [(declsEnd ds, init)] := by
  obtain ⟨ds, d, rfl⟩ : ∃ ds' d, ds = ds' ++ [d] := ⟨_, _, (List.dropLast_concat_getLast h).symm⟩
  rw [addInitializer_append, placeInitializers_append, placeInitializers_append, places_addInitializer, declsEnd_append,
    List.append_assoc]
  rfl

theorem mem_places {o a : Nat} (h : (a, init) ∈ d.places o) : o ≤ a ∧ a + init.size ≤ o + d.size := by
  obtain ⟨h₁, h₂⟩ := mem_place (fun _ => Nat.one_pos) h
  rw [placeEnd_initializers] at h₂
  exact ⟨h₁, h₂⟩

theorem mem_placeInitializers {a : Nat} (h : (a, init) ∈ placeInitializers ds) :
    PN_MEMORY_GUARD_SIZE ≤ a ∧ a + init.size ≤ declsEnd ds := by
  obtain ⟨⟨o, d⟩, hd, h⟩ := List.mem_flatMap.mp h
  obtain ⟨h₁, h₂⟩ := mem_place GlobalVarDecl.alignment_pos hd
  obtain ⟨h₃, h₄⟩ := mem_places h
  dsimp only at h₁ h₂ h₃ h₄
  rw [declsEnd]
  omega

/-- Where the variables begin, with their alignments. -/
def starts (ds : List GlobalVarDecl) : List (Nat × Nat) := (placeDecls ds).map fun p => (p.1, p.2.alignment)

theorem starts_append : starts (ds ++ [d]) = starts ds ++ [(roundUp (declsEnd ds) d.alignment, d.alignment)] := by
  simp [starts, placeDecls_append]

theorem starts_addInitializer : starts (addInitializer init ds) = starts ds := by
  by_cases h : ds = []
  · rw [h]
    rfl
  · obtain ⟨ds, d, rfl⟩ : ∃ ds' d, ds = ds' ++ [d] := ⟨_, _, (List.dropLast_concat_getLast h).symm⟩
    rw [addInitializer_append, starts_append, starts_append]
    rfl

theorem length_addInitializer : (addInitializer init ds).length = ds.length := by
  by_cases h : ds = []
  · rw [h]
    rfl
  · obtain ⟨ds, d, rfl⟩ : ∃ ds' d, ds = ds' ++ [d] := ⟨_, _, (List.dropLast_concat_getLast h).symm⟩
    simp [addInitializer_append]

theorem length_starts : (starts ds).length = ds.length := by
  have h : ∀ (x : Nat) (ds : List GlobalVarDecl),
      (place GlobalVarDecl.alignment GlobalVarDecl.size x ds).length = ds.length := by
    intro x ds
    induction ds generalizing x with
    | nil => rfl
    | cons d ds ih => exact congrArg (· + 1) (ih _)
  rw [starts, List.length_map, placeDecls, h]

theorem declsEnd_le_addRecord (ds : List GlobalVarDecl) (r : PNGlobalvarRecord) : declsEnd ds ≤ declsEnd (addRecord ds r) := by
  cases r with
  | var alignment isConstant => exact placeEnd_le_append GlobalVarDecl.alignment_pos _ ds _
  | compound n => exact le_rfl
  | count n => exact le_rfl
  | initializer init =>
    by_cases h : ds = []
    · rw [h]
      exact le_rfl
    · rw [addRecord, declsEnd_addInitializer h]
      exact Nat.le_add_right _ _

/-! ## What keeps the contents -/

/-- Values and variables stay, so that a relocation means the same. -/
structure KeepsTargets (module module' : PNModule) : Prop where
  values : ∀ {i : Nat} {value : PNValue}, module.values[i]? = some value → module'.values[i]? = some value
  vars : ∀ {i : Nat} {var : PNGlobalVar}, module.globalVars[i]? = some (some var) →
    ∃ var', module'.globalVars[i]? = some (some var') ∧ var'.offset = var.offset

theorem KeepsTargets.of_eq {module module' : PNModule} (hv : module'.values = module.values)
    (hg : module'.globalVars = module.globalVars) : KeepsTargets module module' :=
  ⟨fun h => hv ▸ h, fun h => ⟨_, hg ▸ h, rfl⟩⟩

theorem KeepsTargets.relocValue {module module' : PNModule} (ht : KeepsTargets module module') {index addend v : Nat}
    (h : relocValue module index addend = some v) : Pnacl.relocValue module' index addend = some v := by
  rw [Pnacl.relocValue] at h ⊢
  cases hvalue : module.values[index]? with
  | none =>
    rw [hvalue] at h
    cases h
  | some value =>
    rw [hvalue] at h
    rw [ht.values hvalue]
    dsimp only [Option.map_some] at h ⊢
    cases hcode : value.code with
    | globalVar id =>
      rw [hcode] at h
      simp only [Option.map_eq_some_iff, Option.join_eq_some_iff] at h ⊢
      obtain ⟨var, hvar, hload⟩ := h
      obtain ⟨var', hvar', ho⟩ := ht.vars hvar
      exact ⟨var', hvar', by rw [ho, hload]⟩
    | _ =>
      rw [hcode] at h
      exact h

theorem PNInitializer.Holds.mono {module module' : PNModule} {a : Nat} (h : init.Holds module a)
    (ht : KeepsTargets module module') (hb : SameBytes module.memory.data module'.memory.data a (a + init.size)) :
    init.Holds module' a := by
  cases init with
  | zerofill numBytes => exact fun k hk => (hb _ (Nat.le_add_right a k) (Nat.add_lt_add_left hk a)).trans (h k hk)
  | data bytes =>
    intro k b hk
    have hlt := (List.getElem?_eq_some_iff.mp hk).1
    exact ⟨(h k b hk).1, (hb _ (Nat.le_add_right a k) (Nat.add_lt_add_left hlt a)).trans (h k b hk).2⟩
  | reloc index addend => exact (ht.relocValue h).trans (congrArg some (loadBytes_congr hb).symm)

/-- `pn_globalvar_write_reloc` makes the relocation hold, and writes its four bytes only. -/
theorem pnGlobalvarWriteReloc_holds {module module' : PNModule} {index offset addend : Nat}
    (h : pnGlobalvarWriteReloc module index offset addend = .ok module') (hindex : index < module.values.length) :
    ∃ v, module' = { module with memory := { module.memory with data := storeBytes module.memory.data offset 4 v } } ∧
      (PNInitializer.reloc index addend).Holds module' offset := by
  have hget : module.values[index]? = some (module.values.getD index ⟨.localVar, 0⟩) := by
    rw [List.getD_eq_getElem?_getD, List.getElem?_eq_getElem hindex]
    rfl
  have hwrite : ∀ {v : Nat}, v < 2 ^ 32 → relocValue module index addend = some v →
      (pnMemoryWrite module.memory 4 offset v >>= fun memory => Except.ok { module with memory := memory }) = .ok module' →
      ∃ v, module' = { module with memory := { module.memory with data := storeBytes module.memory.data offset 4 v } } ∧
        (PNInitializer.reloc index addend).Holds module' offset := by
    intro v hv hreloc h
    obtain ⟨memory, hm, h⟩ := bind_eq_ok.mp h
    obtain ⟨_, -, hm⟩ := bind_eq_ok.mp hm
    obtain rfl := Except.ok.inj hm
    obtain rfl := Except.ok.inj h
    refine ⟨v, rfl, ?_⟩
    show relocValue module index addend = some (loadBytes (storeBytes module.memory.data offset 4 v) offset 4)
    rw [loadBytes_storeBytes, hreloc, Nat.mod_eq_of_lt hv]
  rw [pnGlobalvarWriteReloc] at h
  split at h
  · rename_i id hcode
    split at h
    · rename_i var hvar
      refine hwrite (Nat.mod_lt _ (by norm_num)) ?_ h
      rw [relocValue, hget, Option.map_some, hcode]
      simp [hvar]
    · cases h
  · rename_i id hcode
    obtain ⟨-, h⟩ := pnCheck_bind_eq_ok.mp h
    refine hwrite (Nat.mod_lt _ (by norm_num)) ?_ h
    rw [relocValue, hget, Option.map_some, hcode]
    rfl
  · cases h

/-- DATA writes the values that it reads. -/
theorem readData_spec : ∀ {fuel : Nat} {r r' : PNRecordReader} {memory memory' : PNMemory} {offset offset' : Nat},
    readData fuel r memory offset = .ok (memory', offset', r') →
    ∃ bytes, readValues fuel r = .ok (bytes, r') ∧ memory'.size = memory.size ∧
      (offset + bytes.length < 2 ^ 32 → offset' = offset + bytes.length ∧
        (∀ i < offset, memory'.data i = memory.data i) ∧
        ∀ k b, bytes[k]? = some b → b < 2 ^ 8 ∧ memory'.data (offset + k) = UInt8.ofNat b)
  | 0, _, _, _, _, _, _, h => by cases h
  | fuel + 1, r, r', memory, memory', offset, offset', h => by
    obtain ⟨⟨value, r₁⟩, hread, h⟩ := bind_eq_ok.mp h
    cases value with
    | none =>
      cases h
      refine ⟨[], by rw [readValues, hread]; rfl, rfl, fun _ => ⟨rfl, fun _ _ => rfl, fun k b hk => ?_⟩⟩
      cases hk
    | some value =>
      dsimp only at h
      split at h
      · cases h
      · rename_i hvalue
        split at h
        · cases h
        · obtain ⟨bytes, hvs, hsize, hspec⟩ := readData_spec h
          refine ⟨value :: bytes, ?_, hsize, fun hlt => ?_⟩
          · rw [readValues, hread, ok_bind]
            dsimp only
            rw [hvs]
            rfl
          · rw [List.length_cons] at hlt
            have hmod : (offset + 1) % 2 ^ 32 = offset + 1 := Nat.mod_eq_of_lt (by omega)
            rw [hmod] at hspec
            obtain ⟨ho, hbelow, hbytes⟩ := hspec (by omega)
            refine ⟨by rw [ho, List.length_cons]; omega, fun i hi => ?_, fun k b hk => ?_⟩
            · rw [hbelow i (by omega)]
              exact storeBytes_outside (.inl hi)
            · cases k with
              | zero =>
                obtain rfl : value = b := Option.some.inj hk
                refine ⟨by omega, ?_⟩
                rw [Nat.add_zero, hbelow offset (by omega)]
                simp [storeBytes]
              | succ k =>
                obtain ⟨hb, hdata⟩ := hbytes k b hk
                exact ⟨hb, by rw [← hdata]; congr 1; omega⟩

/-! ## The invariant of the block -/

/-- Where the block reader stands behind records that announce the variables `ds`, of which the module has place for
`count`: the variables have been laid out, and every initializer is in place or waits for the end of the block. -/
structure GlobalvarInv (rs : PNReadState) (count : Nat) (ds : List GlobalVarDecl) (s : PNGlobalvarState) : Prop where
  size : s.rs.module.memory.size = rs.module.memory.size
  dataOffset : s.dataOffset = declsEnd ds
  announced : s.numGlobalVars = count
  length : s.rs.module.globalVars.length = count
  numGlobalVars : s.rs.module.numGlobalVars = rs.module.numGlobalVars + ds.length
  values : ∃ vs, s.rs.module.values = rs.module.values ++ vs ∧
    vs.map PNValue.code = (List.range ds.length).map fun i => .globalVar (rs.module.numGlobalVars + i)
  vars : ∀ {i o a : Nat}, (starts ds)[i]? = some (o, a) →
    ∃ var, s.rs.module.globalVars[rs.module.numGlobalVars + i]? = some (some var) ∧ var.offset = o ∧ var.alignment = a
  unset : ∀ {i : Nat} {var : PNGlobalVar}, s.rs.module.globalVars[i]? = some (some var) → i < s.rs.module.numGlobalVars
  current : ∀ {var : PNGlobalVar}, s.globalVar = some var →
    ds ≠ [] ∧ ∃ i, s.index = some i ∧ s.rs.module.globalVars[i]? = some (some var)
  pending : ∀ p ∈ s.relocInfos, (p.offset, .reloc p.index p.addend) ∈ placeInitializers ds
  contents : ∀ q ∈ placeInitializers ds,
    q.2.Holds s.rs.module q.1 ∨ ∃ p ∈ s.relocInfos, q = (p.offset, .reloc p.index p.addend)

/-- `pn_align_up` rounds up, as long as the result is a 32-bit offset. -/
theorem pnAlignUp_eq_roundUp {x k : Nat} (hk : k ≤ 32) (h : roundUp x (2 ^ k) < 2 ^ 32) :
    pnAlignUp x (2 ^ k) = roundUp x (2 ^ k) := by
  have hpos := Nat.two_pow_pos k
  have hpow : 2 ^ 32 = 2 ^ (32 - k) * 2 ^ k := by rw [← Nat.pow_add, Nat.sub_add_cancel hk]
  have hlt : x + 2 ^ k - 1 < 2 ^ 32 := by
    rw [hpow, ← Nat.div_lt_iff_lt_mul hpos]
    rw [roundUp, hpow] at h
    exact Nat.lt_of_mul_lt_mul_right h
  rw [pnAlignUp, and_mask _ hk, Nat.mod_eq_of_lt hlt, roundUp]

/-- The state behind a VAR record. -/
def PNGlobalvarState.beginVar (s : PNGlobalvarState) (n isConstant typeId : Nat) : PNGlobalvarState :=
  let id := s.rs.module.numGlobalVars
  let dataOffset := pnAlignUp s.dataOffset (2 ^ (n - 1))
  PNGlobalvarState.setVar
    { s.setModule (pnModuleAppendValue { s.rs.module with numGlobalVars := id + 1 } ⟨.globalVar id, typeId⟩) with
      index := some id, dataOffset := dataOffset, initializerId := 0 }
    ⟨1, 2 ^ (n - 1), dataOffset, isConstant ≠ 0⟩

section Steps

variable {rs : PNReadState} {count : Nat} {s s' : PNGlobalvarState}

/-- A new variable begins at the first multiple of its alignment. -/
theorem GlobalvarInv.var (h : GlobalvarInv rs count ds s) {n : Nat} (c typeId : Nat) (hn : n - 1 ≤ 32)
    (hid : s.rs.module.numGlobalVars < s.numGlobalVars) (hfit : declsEnd (ds ++ [⟨n, []⟩]) < 2 ^ 32) :
    GlobalvarInv rs count (ds ++ [⟨n, []⟩]) (s.beginVar n c typeId) := by
  have hend : declsEnd (ds ++ [⟨n, []⟩]) = roundUp (declsEnd ds) (2 ^ (n - 1)) := declsEnd_append
  have halign : pnAlignUp s.dataOffset (2 ^ (n - 1)) = roundUp (declsEnd ds) (2 ^ (n - 1)) := by
    rw [h.dataOffset]
    exact pnAlignUp_eq_roundUp hn (hend ▸ hfit)
  have hset : ∀ {i : Nat}, i ≠ s.rs.module.numGlobalVars →
      (s.beginVar n c typeId).rs.module.globalVars[i]? = s.rs.module.globalVars[i]? := fun hi =>
    List.getElem?_set_ne (Ne.symm hi)
  have hnew : (s.beginVar n c typeId).rs.module.globalVars[s.rs.module.numGlobalVars]? =
      some (some ⟨1, 2 ^ (n - 1), roundUp (declsEnd ds) (2 ^ (n - 1)), c ≠ 0⟩) := by
    have hlen : s.rs.module.numGlobalVars < s.rs.module.globalVars.length := by rwa [h.length, ← h.announced]
    rw [← halign]
    exact List.getElem?_set_self hlen
  have hkeep : KeepsTargets s.rs.module (s.beginVar n c typeId).rs.module := by
    constructor
    · intro i value hv
      have hlt := (List.getElem?_eq_some_iff.mp hv).1
      exact (List.getElem?_append_left hlt).trans hv
    · intro i var hv
      exact ⟨var, (hset (Nat.ne_of_lt (h.unset hv))).trans hv, rfl⟩
  have hplaces : placeInitializers (ds ++ [⟨n, []⟩]) = placeInitializers ds := by
    rw [placeInitializers_append]
    exact List.append_nil _
  constructor
  · exact h.size
  · exact halign.trans hend.symm
  · exact h.announced
  · exact List.length_set.trans h.length
  · show s.rs.module.numGlobalVars + 1 = _
    rw [h.numGlobalVars, List.length_append]
    rfl
  · obtain ⟨vs, hvs, hcodes⟩ := h.values
    refine ⟨vs ++ [⟨.globalVar s.rs.module.numGlobalVars, typeId⟩], ?_, ?_⟩
    · show s.rs.module.values ++ _ = _
      rw [hvs, List.append_assoc]
    · rw [List.map_append, hcodes, List.length_append, List.length_singleton, List.range_succ, List.map_append,
        h.numGlobalVars]
      rfl
  · intro i o a hi
    rw [starts_append] at hi
    rcases Nat.lt_trichotomy i ds.length with hlt | rfl | hgt
    · rw [List.getElem?_append_left (by rw [length_starts]; exact hlt)] at hi
      obtain ⟨var, hv, hrest⟩ := h.vars hi
      exact ⟨var, (hset (by rw [h.numGlobalVars]; omega)).trans hv, hrest⟩
    · rw [List.getElem?_append_right (by rw [length_starts]), length_starts, Nat.sub_self] at hi
      obtain ⟨rfl, rfl⟩ := Prod.mk.inj (Option.some.inj hi)
      exact ⟨_, h.numGlobalVars ▸ hnew, rfl, rfl⟩
    · rw [List.getElem?_append_right (by rw [length_starts]; omega), length_starts] at hi
      have := (List.getElem?_eq_some_iff.mp hi).1
      simp at this
      omega
  · intro i var hv
    by_cases hi : i = s.rs.module.numGlobalVars
    · exact hi ▸ Nat.lt_succ_self _
    · exact Nat.lt_succ_of_lt (h.unset ((hset hi).symm.trans hv))
  · rintro var ⟨⟩
    refine ⟨by simp, s.rs.module.numGlobalVars, rfl, ?_⟩
    rw [hnew, halign]
  · rw [hplaces]
    exact h.pending
  · rw [hplaces]
    intro q hq
    rcases h.contents q hq with hholds | hpending
    · exact .inl (hholds.mono hkeep fun i _ _ => rfl)
    · exact .inr hpending

/-- An initializer is filled in behind the last one, or left for the end of the block. -/
theorem GlobalvarInv.fill (h : GlobalvarInv rs count ds s) {var : PNGlobalVar} (hvar : s.globalVar = some var)
    (init : PNInitializer) (memory : PNMemory) (initializerId : Nat) (hsize : memory.size = s.rs.module.memory.size)
    (hbelow : ∀ i < declsEnd ds, memory.data i = s.rs.module.memory.data i) (infos : List PNRelocInfo)
    (hfilled : init.Holds { s.rs.module with memory := memory } (declsEnd ds) ∨
      ∃ p ∈ infos, (declsEnd ds, init) = (p.offset, .reloc p.index p.addend))
    (hinfos : ∀ p ∈ infos, (declsEnd ds, init) = (p.offset, .reloc p.index p.addend)) :
    GlobalvarInv rs count (addInitializer init ds)
      { s.setModule { s.rs.module with memory := memory } with
        initializerId := initializerId, dataOffset := declsEnd ds + init.size, relocInfos := s.relocInfos ++ infos } := by
  have hds := (h.current hvar).1
  have hplaces : placeInitializers (addInitializer init ds) = _ := placeInitializers_addInitializer hds
  constructor
  · exact hsize.trans h.size
  · exact (declsEnd_addInitializer hds).symm
  · exact h.announced
  · exact h.length
  · rw [length_addInitializer]
    exact h.numGlobalVars
  · rw [length_addInitializer]
    exact h.values
  · rw [starts_addInitializer]
    exact h.vars
  · exact h.unset
  · intro var' hvar'
    obtain ⟨-, hindex⟩ := h.current hvar'
    refine ⟨?_, hindex⟩
    rw [← List.length_pos_iff, length_addInitializer]
    exact List.length_pos_iff.mpr hds
  · rw [hplaces]
    intro p hp
    rcases List.mem_append.mp hp with hp | hp
    · exact List.mem_append_left _ (h.pending p hp)
    · exact List.mem_append_right _ (List.mem_singleton.mpr (hinfos p hp).symm)
  · rw [hplaces]
    intro q hq
    rcases List.mem_append.mp hq with hq | hq
    · rcases h.contents q hq with hholds | ⟨p, hp, hq'⟩
      · refine .inl (hholds.mono (.of_eq rfl rfl) fun i _ hi => hbelow i ?_)
        exact hi.trans_le (mem_placeInitializers hq).2
      · exact .inr ⟨p, List.mem_append_left _ hp, hq'⟩
    · obtain rfl := List.mem_singleton.mp hq
      rcases hfilled with hholds | ⟨p, hp, hq'⟩
      · exact .inl hholds
      · exact .inr ⟨p, List.mem_append_right _ hp, hq'⟩

/-- COMPOUND changes nothing but the number of initializers. -/
theorem GlobalvarInv.compound (h : GlobalvarInv rs count ds s) {var : PNGlobalVar} (hvar : s.globalVar = some var)
    (numInitializers : Nat) : GlobalvarInv rs count ds (s.setVar { var with numInitializers := numInitializers }) := by
  obtain ⟨hds, index, hindex, hget⟩ := h.current hvar
  have hs : (s.setVar { var with numInitializers := numInitializers }).rs.module.globalVars =
      s.rs.module.globalVars.set index (some { var with numInitializers := numInitializers }) := by
    unfold PNGlobalvarState.setVar
    rw [hindex]
    rfl
  have hself : (s.rs.module.globalVars.set index (some { var with numInitializers := numInitializers }))[index]? =
      some (some { var with numInitializers := numInitializers }) :=
    List.getElem?_set_self (List.getElem?_eq_some_iff.mp hget).1
  have hold : ∀ {i : Nat} {var' : PNGlobalVar}, s.rs.module.globalVars[i]? = some (some var') →
      ∃ var'', (s.rs.module.globalVars.set index (some { var with numInitializers := numInitializers }))[i]? =
        some (some var'') ∧ var''.offset = var'.offset ∧ var''.alignment = var'.alignment := by
    intro i var' hv
    by_cases hi : i = index
    · subst hi
      obtain rfl : var = var' := Option.some.inj (Option.some.inj (hget.symm.trans hv))
      exact ⟨_, hself, rfl, rfl⟩
    · exact ⟨var', (List.getElem?_set_ne (Ne.symm hi)).trans hv, rfl, rfl⟩
  have hkeep : KeepsTargets s.rs.module (s.setVar { var with numInitializers := numInitializers }).rs.module := by
    refine ⟨id, fun hv => ?_⟩
    obtain ⟨var'', hv'', ho, -⟩ := hold hv
    exact ⟨var'', by rw [hs, hv''], ho⟩
  constructor
  · exact h.size
  · exact h.dataOffset
  · exact h.announced
  · rw [hs, List.length_set]
    exact h.length
  · exact h.numGlobalVars
  · exact h.values
  · intro i o a hi
    obtain ⟨var', hv, ho, ha⟩ := h.vars hi
    obtain ⟨var'', hv'', ho', ha'⟩ := hold hv
    exact ⟨var'', by rw [hs, hv''], ho'.trans ho, ha'.trans ha⟩
  · intro i var' hv
    rw [hs] at hv
    by_cases hi : i = index
    · exact h.unset (hi ▸ hget)
    · exact h.unset ((List.getElem?_set_ne (Ne.symm hi)).symm.trans hv)
  · rintro var' ⟨⟩
    exact ⟨hds, index, hindex, hs ▸ hself⟩
  · exact h.pending
  · intro q hq
    rcases h.contents q hq with hholds | hpending
    · exact .inl (hholds.mono hkeep fun i _ _ => rfl)
    · exact .inr hpending

end Steps

/-! ## The records of the block -/

/-- The state of the block reader at its first record. -/
def globalvarStart (rs : PNReadState) : PNGlobalvarState :=
  ⟨{ rs with module := { rs.module with globalvarStart := PN_MEMORY_GUARD_SIZE } }, none, none, 0, 0, PN_MEMORY_GUARD_SIZE, []⟩

/-- One COUNT record, then others, which announce variables that fit into the memory. -/
structure Announces (rs : PNReadState) (records : List PNGlobalvarRecord) (count : Nat) (ds : List GlobalVarDecl) : Prop where
  records : ∃ rest, records = .count count :: rest ∧ (∀ r ∈ rest, ¬r.IsCount) ∧ ds = declarations rest
  fits : declsEnd ds ≤ rs.module.memory.size

/-- The state of the reader behind these records. -/
structure GlobalvarTracked (rs : PNReadState) (s : PNGlobalvarState) (records : List PNGlobalvarRecord) : Prop where
  start : records = [] → s = globalvarStart rs
  inv : ∀ {count ds}, Announces rs records count ds → GlobalvarInv rs count ds s

section Tracked

variable {rs : PNReadState} {s s' : PNGlobalvarState} {records : List PNGlobalvarRecord} {r : PNGlobalvarRecord}

/-- Before the last record the announced variables fit as well. -/
theorem Announces.before {count : Nat} {ds : List GlobalVarDecl} (h : Announces rs (records ++ [r]) count ds) (hr : ¬r.IsCount) :
    ∃ ds₀, Announces rs records count ds₀ ∧ ds = addRecord ds₀ r := by
  obtain ⟨⟨rest, hrest, hcount, rfl⟩, hfits⟩ := h
  cases records with
  | nil =>
    obtain ⟨rfl, -⟩ := List.cons.inj hrest
    exact absurd trivial hr
  | cons r₀ records =>
    obtain ⟨rfl, h⟩ := List.cons.inj hrest
    obtain rfl : records ++ [r] = rest := h
    rw [declarations_append] at hfits ⊢
    refine ⟨declarations records, ⟨⟨records, rfl, fun r' hr' => hcount r' (List.mem_append_left _ hr'), rfl⟩, ?_⟩, rfl⟩
    exact (declsEnd_le_addRecord _ r).trans hfits

theorem GlobalvarTracked.record (h : GlobalvarTracked rs s records) (hr : ¬r.IsCount)
    (hstep : ∀ {count ds}, GlobalvarInv rs count ds s → declsEnd (addRecord ds r) ≤ rs.module.memory.size →
      GlobalvarInv rs count (addRecord ds r) s') :
    GlobalvarTracked rs s' (records ++ [r]) := by
  refine ⟨fun hnil => absurd hnil (by simp), fun {count ds} hds => ?_⟩
  obtain ⟨ds₀, hds₀, rfl⟩ := hds.before hr
  exact hstep (h.inv hds₀) hds.fits

theorem GlobalvarTracked.count (h : GlobalvarTracked rs s records) (count : Nat) :
    GlobalvarTracked rs { s.setModule { s.rs.module with globalVars := List.replicate count none } with
      numGlobalVars := count, index := none } (records ++ [.count count]) := by
  refine ⟨fun hnil => absurd hnil (by simp), fun {count' ds} hds => ?_⟩
  obtain ⟨⟨rest, hrest, hcount, rfl⟩, -⟩ := hds
  cases records with
  | cons r₀ records =>
    obtain ⟨rfl, rfl⟩ := List.cons.inj hrest
    exact absurd trivial (hcount (.count count) (by simp))
  | nil =>
    obtain ⟨hc, rfl⟩ := List.cons.inj hrest
    obtain rfl := PNGlobalvarRecord.count.inj hc
    rw [h.start rfl]
    constructor
    · rfl
    · rfl
    · rfl
    · exact List.length_replicate
    · rfl
    · exact ⟨[], (List.append_nil _).symm, rfl⟩
    · intro i o a hi
      cases hi
    · intro i var hv
      have hmem := List.mem_of_getElem? hv
      cases List.eq_of_mem_replicate hmem
    · intro var hvar
      cases hvar
    · intro p hp
      cases hp
    · intro q hq
      cases hq

theorem nextInitializer_cases (h : s.nextInitializer = .ok s') :
    ∃ var, s.globalVar = some var ∧ s' = { s with initializerId := (s.initializerId + 1) % 2 ^ 32 } := by
  rw [PNGlobalvarState.nextInitializer] at h
  split at h
  · cases h
  · rename_i var hvar
    obtain ⟨-, h⟩ := pnCheck_bind_eq_ok.mp h
    exact ⟨var, hvar, (Except.ok.inj h).symm⟩

/-- An initializer whose bytes are written at once. -/
theorem GlobalvarInv.written {count : Nat} (hI : GlobalvarInv rs count ds s) {var : PNGlobalVar}
    (hvar : s.globalVar = some var) (init : PNInitializer) (memory : PNMemory) (initializerId : Nat) {dataOffset : Nat}
    (hsize : memory.size = s.rs.module.memory.size)
    (hbelow : ∀ i < declsEnd ds, memory.data i = s.rs.module.memory.data i)
    (hholds : init.Holds { s.rs.module with memory := memory } (declsEnd ds))
    (hoffset : dataOffset = declsEnd ds + init.size) :
    GlobalvarInv rs count (addInitializer init ds)
      { s.setModule { s.rs.module with memory := memory } with
        initializerId := initializerId, dataOffset := dataOffset } := by
  have hfill := hI.fill hvar init memory initializerId hsize hbelow [] (.inl hholds) (by simp)
  rw [List.append_nil, ← hoffset] at hfill
  exact hfill

variable (hmem : rs.module.memory.size < 2 ^ 32)
include hmem

theorem GlobalvarTracked.zerofill (h : GlobalvarTracked rs s records) {var : PNGlobalVar} (hvar : s.globalVar = some var)
    (numBytes initializerId : Nat) :
    GlobalvarTracked rs { s.setModule { s.rs.module with memory := { s.rs.module.memory with
        data := fillBytes s.rs.module.memory.data s.dataOffset 0 numBytes } } with
      initializerId := initializerId, dataOffset := (s.dataOffset + numBytes) % 2 ^ 32 }
      (records ++ [.initializer (.zerofill numBytes)]) := by
  refine h.record id fun {count ds} hI hfits => ?_
  rw [addRecord, declsEnd_addInitializer (hI.current hvar).1, PNInitializer.size] at hfits
  rw [hI.dataOffset]
  refine hI.written hvar (.zerofill numBytes) { s.rs.module.memory with
    data := fillBytes s.rs.module.memory.data (declsEnd ds) 0 numBytes } initializerId rfl
    (fun i hi => fillBytes_outside (.inl hi)) (fun k hk => ?_) (Nat.mod_eq_of_lt (by omega))
  show fillBytes s.rs.module.memory.data (declsEnd ds) 0 numBytes (declsEnd ds + k) = 0
  exact if_pos (by omega)

theorem GlobalvarTracked.data (h : GlobalvarTracked rs s records) {var : PNGlobalVar} (hvar : s.globalVar = some var)
    {fuel offset' : Nat} {reader reader' : PNRecordReader} {memory' : PNMemory}
    (hread : readData fuel reader s.rs.module.memory s.dataOffset = .ok (memory', offset', reader')) (initializerId : Nat) :
    ∃ bytes, readValues fuel reader = .ok (bytes, reader') ∧
      GlobalvarTracked rs { s.setModule { s.rs.module with memory := memory' } with
        initializerId := initializerId, dataOffset := offset' } (records ++ [.initializer (.data bytes)]) := by
  obtain ⟨bytes, hvs, hsize, hspec⟩ := readData_spec hread
  refine ⟨bytes, hvs, h.record id fun {count ds} hI hfits => ?_⟩
  rw [addRecord, declsEnd_addInitializer (hI.current hvar).1, PNInitializer.size] at hfits
  rw [hI.dataOffset] at hspec
  obtain ⟨hoffset, hbelow, hbytes⟩ := hspec (by omega)
  exact hI.written hvar (.data bytes) memory' initializerId hsize hbelow hbytes hoffset

/-- RELOC, written at once or left for later. -/
theorem GlobalvarTracked.reloc (h : GlobalvarTracked rs s records) {reader reader' : PNRecordReader}
    (hread : readReloc s reader = .ok (s', reader')) :
    ∃ index addend r₁, pnRecordReadUint32 reader "reloc index" = .ok (index, r₁) ∧
      pnRecordTryReadUint32 r₁ = .ok (addend, reader') ∧
      GlobalvarTracked rs s' (records ++ [.initializer (.reloc index (addend.getD 0))]) := by
  obtain ⟨s₁, h₁, hread⟩ := bind_eq_ok.mp hread
  obtain ⟨var, hvar, rfl⟩ := nextInitializer_cases h₁
  obtain ⟨⟨index, r₁⟩, hindex, hread⟩ := bind_eq_ok.mp hread
  obtain ⟨⟨addend, r₂⟩, haddend, hread⟩ := bind_eq_ok.mp hread
  dsimp only at hread haddend
  split at hread
  · rename_i hlt
    obtain ⟨module, hm, hread⟩ := bind_eq_ok.mp hread
    obtain ⟨v, rfl, hholds⟩ := pnGlobalvarWriteReloc_holds hm hlt
    cases hread
    refine ⟨index, addend, r₁, hindex, haddend, h.record id fun {count ds} hI hfits => ?_⟩
    rw [addRecord, declsEnd_addInitializer (hI.current hvar).1, PNInitializer.size] at hfits
    dsimp only at hholds ⊢
    rw [hI.dataOffset] at hholds ⊢
    exact hI.written hvar (.reloc index (addend.getD 0)) { s.rs.module.memory with
      data := storeBytes s.rs.module.memory.data (declsEnd ds) 4 v } _ rfl
      (fun i hi => storeBytes_outside (.inl hi)) hholds (Nat.mod_eq_of_lt (by omega))
  · cases hread
    refine ⟨index, addend, r₁, hindex, haddend, h.record id fun {count ds} hI hfits => ?_⟩
    rw [addRecord, declsEnd_addInitializer (hI.current hvar).1, PNInitializer.size] at hfits
    have hfill := hI.fill hvar (.reloc index (addend.getD 0)) s.rs.module.memory ((s.initializerId + 1) % 2 ^ 32) rfl
      (fun _ _ => rfl) [⟨declsEnd ds, index, addend.getD 0⟩] (.inr ⟨_, List.mem_singleton.mpr rfl, rfl⟩) fun p hp => by
        obtain rfl := List.mem_singleton.mp hp
        rfl
    rw [hI.dataOffset, Nat.mod_eq_of_lt (show declsEnd ds + 4 < 2 ^ 32 by omega)]
    exact hfill

end Tracked

/-! ## The end of the block -/

/-- A store of four bytes at a relocation leaves the other initializers alone. -/
theorem PNInitializer.Holds.store {module : PNModule} {p q : Nat × PNInitializer} (h : q.2.Holds module q.1)
    (hapart : p.1 + 4 ≤ q.1 ∨ q.1 + q.2.size ≤ p.1) (v : Nat) :
    q.2.Holds { module with memory := { module.memory with data := storeBytes module.memory.data p.1 4 v } } q.1 :=
  h.mono (.of_eq rfl rfl) fun i hi hi' => storeBytes_outside (by omega)

end Pnacl
