import Pnacl.TypeCodec

/-!
# Reading a symbol table undoes writing it

Every list of names for the values of a module has an encoding as a symbol table, and behind that block each function has the last
of its names, is the last intrinsic that it was named after, and each intrinsic is known as the last function of that name
(`PNModule.withNames`, `symtab_decodes`).
-/

namespace Pnacl

open Lib PNBitStream

/-- A value with a name for it. -/
abbrev NamedValue := Nat × List Nat

/-- ENTRY. -/
def encSymbol (symbol : NamedValue) : CodedRecord := (1, symbol.1 :: symbol.2)

/-- A symbol table behind its id. -/
def encSymtabBlock (offset width words : Nat) (symbols : List NamedValue) : List Bool :=
  encBlock offset width words ((symbols.map encSymbol).flatMap (encRecord width))

/-! ## What the names mean -/

/-- The function that a value is, if it is one. -/
def PNModule.functionAt (module : PNModule) (valueId : Nat) : Option Nat :=
  match (module.values.getD valueId ⟨.localVar, 0⟩).code with
  | .function index => some index
  | _ => none

/-- The names of a function. -/
def PNModule.namesOf (module : PNModule) (symbols : List NamedValue) (functionId : Nat) : List (List Nat) :=
  (symbols.filter fun symbol => module.functionAt symbol.1 = some functionId).map Prod.snd

/-- The functions with the name of an intrinsic. -/
def PNModule.functionsNamed (module : PNModule) (symbols : List NamedValue) (id : PNIntrinsicId) : List Nat :=
  (symbols.filter fun symbol => findIntrinsic symbol.2 = some id).filterMap fun symbol => module.functionAt symbol.1

/-- The last name counts, and the last one that is the name of an intrinsic. -/
def PNFunction.withNames (f : PNFunction) (names : List (List Nat)) : PNFunction :=
  { f with
    name := names.getLast?.or f.name
    intrinsicId := (names.filterMap findIntrinsic).getLast?.getD f.intrinsicId }

def PNModule.withNames (module : PNModule) (symbols : List NamedValue) : PNModule :=
  { module with
    functions := module.functions.mapIdx fun functionId f => f.withNames (module.namesOf symbols functionId)
    knownFunctions := fun id => (module.functionsNamed symbols id).getLast?.getD (module.knownFunctions id) }

/-- A symbol table that can be written: its values exist, its characters are bytes, and no function is without a name. -/
structure SymbolsWritable (module : PNModule) (symbols : List NamedValue) : Prop where
  value : ∀ symbol ∈ symbols, symbol.1 < module.values.length ∧ symbol.1 < 2 ^ 32
  byte : ∀ symbol ∈ symbols, ∀ c ∈ symbol.2, c < 2 ^ 8
  named : ∀ symbol ∈ symbols, module.functionAt symbol.1 ≠ none → symbol.2 ≠ []

section

variable {module : PNModule} {symbol : NamedValue} {symbols : List NamedValue} {fuel stop : Nat} {rest : List Bool}

theorem getLast?_getD_cons {α : Type} (a b : α) (l : List α) : (a :: l).getLast?.getD b = l.getLast?.getD a := by
  rw [List.getLast?_cons, Option.getD_some]

theorem PNFunction.withNames_nil (f : PNFunction) : f.withNames [] = f := rfl

/-- The names count one after the other. -/
theorem PNFunction.withNames_cons (f : PNFunction) (name : List Nat) (names : List (List Nat)) :
    f.withNames (name :: names) = (f.withNames [name]).withNames names := by
  have hname : (name :: names).getLast?.or f.name = names.getLast?.or (some name) := by
    rw [List.getLast?_cons]
    cases names.getLast? <;> rfl
  have hid : ((name :: names).filterMap findIntrinsic).getLast?.getD f.intrinsicId =
      (names.filterMap findIntrinsic).getLast?.getD (([name].filterMap findIntrinsic).getLast?.getD f.intrinsicId) := by
    cases h : findIntrinsic name with
    | none => simp only [List.filterMap_cons, h, List.filterMap_nil, List.getLast?_nil, Option.getD_none]
    | some id => simp only [List.filterMap_cons, h, List.filterMap_nil, getLast?_getD_cons, List.getLast?_nil, Option.getD_none]
  simp only [PNFunction.withNames, hname, hid, List.getLast?_singleton, Option.some_or]

theorem PNModule.namesOf_cons (functionId : Nat) : module.namesOf (symbol :: symbols) functionId =
    if module.functionAt symbol.1 = some functionId then symbol.2 :: module.namesOf symbols functionId
    else module.namesOf symbols functionId := by
  by_cases h : module.functionAt symbol.1 = some functionId
  · simp [PNModule.namesOf, h]
  · simp [PNModule.namesOf, h]

theorem PNModule.functionsNamed_cons (id : PNIntrinsicId) : module.functionsNamed (symbol :: symbols) id =
    module.functionsNamed [symbol] id ++ module.functionsNamed symbols id := by
  have h : symbol :: symbols = [symbol] ++ symbols := rfl
  rw [PNModule.functionsNamed, h, List.filter_append, List.filterMap_append]
  rfl

theorem PNModule.withNames_nil (module : PNModule) : module.withNames [] = module := by
  have hf : module.functions.mapIdx (fun functionId f => f.withNames (module.namesOf [] functionId)) = module.functions := by
    refine List.ext_getElem? fun i => ?_
    rw [List.getElem?_mapIdx]
    exact congrFun Option.map_id_fun' _
  rw [PNModule.withNames, hf]
  rfl

/-- The symbols count one after the other. -/
theorem PNModule.withNames_cons (module : PNModule) (symbol : NamedValue) (symbols : List NamedValue) :
    module.withNames (symbol :: symbols) = (module.withNames [symbol]).withNames symbols := by
  have hf : (module.withNames (symbol :: symbols)).functions = ((module.withNames [symbol]).withNames symbols).functions := by
    refine List.ext_getElem? fun i => ?_
    change (module.functions.mapIdx fun i f => f.withNames (module.namesOf (symbol :: symbols) i))[i]? =
      ((module.functions.mapIdx fun i f => f.withNames (module.namesOf [symbol] i)).mapIdx fun i f =>
        f.withNames (module.namesOf symbols i))[i]?
    rw [List.getElem?_mapIdx, List.getElem?_mapIdx, List.getElem?_mapIdx, Option.map_map]
    refine congrArg (fun g => Option.map g module.functions[i]?) (funext fun f => ?_)
    simp only [Function.comp_apply]
    rw [PNModule.namesOf_cons, PNModule.namesOf_cons]
    split
    · exact f.withNames_cons symbol.2 _
    · rfl
  have hk : (module.withNames (symbol :: symbols)).knownFunctions =
      ((module.withNames [symbol]).withNames symbols).knownFunctions := by
    refine funext fun id => ?_
    change (module.functionsNamed (symbol :: symbols) id).getLast?.getD (module.knownFunctions id) =
      (module.functionsNamed symbols id).getLast?.getD
        ((module.functionsNamed [symbol] id).getLast?.getD (module.knownFunctions id))
    rw [PNModule.functionsNamed_cons, List.getLast?_append, Option.getD_or]
  exact congrArg₂ (fun functions known => ({ module with functions := functions, knownFunctions := known } : PNModule)) hf hk

/-- Naming a function. -/
theorem nameFunction_eq {functionId : Nat} (hfunction : module.functionAt symbol.1 = some functionId) :
    nameFunction module functionId (some symbol.2) = .ok (module.withNames [symbol]) := by
  have hfunctions : ∀ g : PNFunction → PNFunction, (∀ f, g f = f.withNames [symbol.2]) →
      module.functions.modify functionId g = (module.withNames [symbol]).functions := by
    intro g hg
    refine List.ext_getElem? fun i => ?_
    change _ = (module.functions.mapIdx fun i f => f.withNames (module.namesOf [symbol] i))[i]?
    rw [List.getElem?_modify, List.getElem?_mapIdx, PNModule.namesOf_cons, hfunction]
    by_cases hi : functionId = i
    · simp only [hi, if_true]
      exact congrArg (fun g => Option.map g module.functions[i]?) (funext hg)
    · simp only [hi, if_false, Option.some.injEq]
      rfl
  have hknown : ∀ id, (module.withNames [symbol]).knownFunctions id =
      if findIntrinsic symbol.2 = some id then functionId else module.knownFunctions id := by
    intro id
    by_cases hid : findIntrinsic symbol.2 = some id
    · simp [PNModule.withNames, PNModule.functionsNamed, hid, hfunction]
    · simp [PNModule.withNames, PNModule.functionsNamed, hid]
  cases hid : findIntrinsic symbol.2 with
  | none =>
    have hk : module.knownFunctions = (module.withNames [symbol]).knownFunctions := by
      refine funext fun id => ?_
      rw [hknown, if_neg (by simp [hid])]
    have hf := hfunctions (fun f => { f with name := some symbol.2 }) fun f => by simp [PNFunction.withNames, hid]
    simp only [nameFunction, hid]
    exact congrArg Except.ok (congrArg₂
      (fun functions known => ({ module with functions := functions, knownFunctions := known } : PNModule)) hf hk)
  | some id =>
    have hk : (fun i => if i = id then functionId else module.knownFunctions i) = (module.withNames [symbol]).knownFunctions := by
      refine funext fun i => ?_
      simp only [hknown, hid, Option.some.injEq, eq_comm]
    have hf := hfunctions (fun f => { f with name := some symbol.2, intrinsicId := id }) fun f => by
      simp [PNFunction.withNames, hid]
    simp only [nameFunction, hid]
    exact congrArg Except.ok (congrArg₂
      (fun functions known => ({ module with functions := functions, knownFunctions := known } : PNModule)) hf hk)

/-- A name for a value that is no function is dropped. -/
theorem PNModule.withNames_other (h : module.functionAt symbol.1 = none) : module.withNames [symbol] = module := by
  have hf : (module.withNames [symbol]).functions = module.functions := by
    refine List.ext_getElem? fun i => ?_
    change (module.functions.mapIdx fun i f => f.withNames (module.namesOf [symbol] i))[i]? = _
    rw [List.getElem?_mapIdx, PNModule.namesOf_cons, h, if_neg (by simp)]
    exact congrFun Option.map_id_fun' _
  have hk : (module.withNames [symbol]).knownFunctions = module.knownFunctions := by
    refine funext fun id => ?_
    have hnone : module.functionsNamed [symbol] id = [] := by
      rw [PNModule.functionsNamed, List.filterMap_eq_nil_iff]
      intro p hp
      rw [List.mem_singleton.mp (List.mem_filter.mp hp).1, h]
    change (module.functionsNamed [symbol] id).getLast?.getD (module.knownFunctions id) = _
    rw [hnone]
    rfl
  exact congrArg₂ (fun functions known => ({ module with functions := functions, knownFunctions := known } : PNModule)) hf hk

theorem readName_before : ∀ {name : List Nat} {reader : PNRecordReader} (acc : List Nat), reader.Before name stop rest →
    (∀ c ∈ name, c < 2 ^ 8) → ∃ r', readName name.length reader acc = .ok (acc ++ name, r') ∧ r'.Before [] stop rest
  | [], reader, acc, h, _ => ⟨reader, by rw [List.append_nil]; rfl, h⟩
  | c :: name, reader, acc, h, hname => by
    have hc := hname c (List.mem_cons_self ..)
    obtain ⟨r₁, h₁, hb₁⟩ := h.readUint32 (show c < 2 ^ 32 by omega) "name char"
    obtain ⟨r', hr, hb⟩ := readName_before (acc ++ [c]) hb₁ fun d hd => hname d (List.mem_cons_of_mem _ hd)
    refine ⟨r', ?_, hb⟩
    rw [List.length_cons, readName, h₁, ok_bind]
    dsimp only
    rw [Nat.mod_eq_of_lt hc, hr, List.append_assoc]
    rfl

/-- Each name is read back from its record. -/
theorem symtabBlock_takes_symbol {s : PNReadState} (hvalue : symbol.1 < s.module.values.length ∧ symbol.1 < 2 ^ 32)
    (hbyte : ∀ c ∈ symbol.2, c < 2 ^ 8) (hnamed : s.module.functionAt symbol.1 ≠ none → symbol.2 ≠ [])
    (hfuel : (encSymbol symbol).2.length < fuel) :
    (pnValueSymtabBlock fuel).TakesRecord s (encSymbol symbol) { s with module := s.module.withNames [symbol] } := by
  intro reader stop rest h
  simp only [encSymbol, List.length_cons] at hfuel
  obtain ⟨r₁, h₁, hb₁⟩ := PNRecordReader.Before.readUint32 h hvalue.2 "value_id"
  obtain ⟨r₂, h₂, hb₂⟩ := hb₁.numValuesLeft (fun c hc => Nat.lt_trans (hbyte c hc) (by decide))
    (show symbol.2.length < fuel by omega)
  obtain ⟨r₃, h₃, hb₃⟩ := readName_before [] hb₂ hbyte
  obtain ⟨bs, hf, hg⟩ := hb₃.finish (show 0 < fuel by omega) { s with module := s.module.withNames [symbol] }
  have hread : readSymbol fuel s.module reader = .ok (s.module.withNames [symbol], r₃) := by
    rw [readSymbol, h₁, ok_bind]
    dsimp only
    rw [pnModuleValueIdCheck, pnCheck_bind hvalue.1, h₂, ok_bind]
    dsimp only
    rw [h₃, ok_bind, List.nil_append]
    cases hcode : (s.module.values.getD symbol.1 ⟨.localVar, 0⟩).code with
    | function index =>
      have hfunction : s.module.functionAt symbol.1 = some index := by rw [PNModule.functionAt, hcode]
      have hname : symbol.2.length ≠ 0 := fun h0 => hnamed (by simp [hfunction]) (List.length_eq_zero_iff.mp h0)
      simp only [if_neg hname, nameFunction_eq hfunction, ok_bind]
    | globalVar _ => rw [PNModule.withNames_other (by rw [PNModule.functionAt, hcode])]
    | constant _ => rw [PNModule.withNames_other (by rw [PNModule.functionAt, hcode])]
    | functionArg _ => rw [PNModule.withNames_other (by rw [PNModule.functionAt, hcode])]
    | localVar => rw [PNModule.withNames_other (by rw [PNModule.functionAt, hcode])]
  refine ⟨bs, ?_, hg⟩
  simp only [pnValueSymtabBlock, encSymbol, hread, ok_bind]
  exact hf

/-- One name after the other. -/
theorem symtabBlock_takes : ∀ (symbols : List NamedValue) {s : PNReadState}, SymbolsWritable s.module symbols →
    (∀ r ∈ symbols.map encSymbol, r.2.length < fuel) →
    (pnValueSymtabBlock fuel).Takes s (symbols.map encSymbol) { s with module := s.module.withNames symbols }
  | [], s, _, _ => by
    rw [PNModule.withNames_nil]
    exact .nil s
  | symbol :: symbols, s, hw, hfuel => by
    have hmem := List.mem_cons_self (a := symbol) (l := symbols)
    have htake := symtabBlock_takes_symbol (hw.value symbol hmem) (hw.byte symbol hmem) (hw.named symbol hmem)
      (hfuel _ (List.mem_cons_self ..))
    have hrest := symtabBlock_takes symbols (s := { s with module := s.module.withNames [symbol] })
      ⟨fun p hp => hw.value p (List.mem_cons_of_mem _ hp), fun p hp => hw.byte p (List.mem_cons_of_mem _ hp),
        fun p hp => hw.named p (List.mem_cons_of_mem _ hp)⟩ fun r hr => hfuel r (List.mem_cons_of_mem _ hr)
    rw [PNModule.withNames_cons]
    exact .cons (show 1 < 2 ^ 32 by decide) htake hrest

/-- **Reading a symbol table undoes writing it**: the functions have the names that were written, the intrinsics among them are
known, nothing else changes, and the stream goes on behind the block. -/
theorem symtab_decodes {host : PNHost} {rs : PNReadState} {bs : PNBitStream} {width words : Nat}
    (hw : SymbolsWritable rs.module symbols) (hwidth : 2 ≤ width) (hle : width ≤ 32) (hwords : words < 2 ^ 32)
    (hfuel : FuelFor fuel (symbols.map encSymbol)) (h : bs.GoesOn stop (encSymtabBlock stop width words symbols ++ rest)) :
    ∃ bs', pnValueSymtabBlockRead host fuel rs bs = .ok ({ rs with module := rs.module.withNames symbols }, bs') ∧
      bs'.GoesOn (stop + (encSymtabBlock stop width words symbols).length) rest :=
  readBlock_aligned hwidth hle hwords ((symtabBlock_takes symbols hw hfuel.2).reads hwidth hle) hfuel.1 (fun _ => rfl) h

end

/-- A module of two functions and a global variable, without names. -/
def namelessModule : PNModule :=
  { pnModuleInit ⟨fun _ => 0, 2 ^ 16⟩ with
    functions := List.replicate 2 ⟨none, 1, .null, 2, 0, false, 0, [], [], [], 0, none⟩
    values := [⟨.function 0, 0⟩, ⟨.function 1, 0⟩, ⟨.globalVar 0, 0⟩] }

/-- `_start` for the second function, `m` for both and for the variable, and `llvm.trap` for the first. -/
def writtenSymbols : List NamedValue :=
  [(1, [95, 115, 116, 97, 114, 116]), (0, [109]), (1, [109]), (2, [109]), (0, [108, 108, 118, 109, 46, 116, 114, 97, 112])]

/-- The second function stays `_start` under its second name. -/
example : (namelessModule.withNames writtenSymbols).functions.map (fun f => (f.name, f.intrinsicId)) =
    [(some [108, 108, 118, 109, 46, 116, 114, 97, 112], .llvmTrap), (some [109], .start)] := by
  decide +kernel

theorem writtenSymbols_writable : SymbolsWritable namelessModule writtenSymbols := by
  constructor
  · intro symbol h
    simp only [writtenSymbols, List.mem_cons, List.not_mem_nil, or_false] at h
    rcases h with rfl | rfl | rfl | rfl | rfl <;> decide
  · intro symbol h
    simp only [writtenSymbols, List.mem_cons, List.not_mem_nil, or_false] at h
    rcases h with rfl | rfl | rfl | rfl | rfl <;> decide
  · intro symbol h _
    simp only [writtenSymbols, List.mem_cons, List.not_mem_nil, or_false] at h
    rcases h with rfl | rfl | rfl | rfl | rfl <;> exact List.cons_ne_nil _ _

theorem symtab_decodes_written : ∃ bs', pnValueSymtabBlockRead zeroHost 11 ⟨namelessModule, {}, []⟩
    (fileOf (encSymtabBlock 0 4 3 writtenSymbols ++ [])) =
      .ok (⟨namelessModule.withNames writtenSymbols, {}, []⟩, bs') ∧
    bs'.GoesOn (0 + (encSymtabBlock 0 4 3 writtenSymbols).length) [] :=
  symtab_decodes writtenSymbols_writable (by decide) (by decide) (by decide) ⟨by decide, by decide⟩
    (fileOf_goesOn (by decide +kernel))

end Pnacl
