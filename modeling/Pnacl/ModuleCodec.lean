import Pnacl.BodyCodec
import Pnacl.TypeCodec

/-!
# Reading a module undoes writing it

A module without global variables and names is written as a whole file: the header, and a module block with the version, the types,
a record for each function and a block for each body. The reader accepts the file and gives back the module, each function as the
passes leave it (`module_decodes`).
-/

namespace Pnacl

open Lib PNBitStream

/-! ## Modules that are written -/

/-- A function; one without a body is a prototype. -/
structure WrittenFunction where
  typeId : Nat
  callingConvention : Nat
  linkage : Nat
  body : Option WrittenBody

structure WrittenModule where
  version : Nat
  types : List PNType
  functions : List WrittenFunction

/-- The ids of a module of version 1 are relative. -/
def WrittenModule.relative (m : WrittenModule) : Bool := m.version = 1

def WrittenModule.argTypes (m : WrittenModule) (f : WrittenFunction) : List Nat :=
  match m.types[f.typeId]? with
  | some (.function _ _ argTypes) => argTypes
  | _ => []

/-- The function, as its record leaves it. -/
def WrittenModule.declared (m : WrittenModule) (f : WrittenFunction) : PNFunction where
  name := none
  typeId := f.typeId
  intrinsicId := .null
  numArgs := (m.argTypes f).length
  callingConvention := f.callingConvention
  isProto := f.body.isNone
  linkage := f.linkage
  constants := []
  bbs := []
  values := []
  numInstructions := 0
  instructions := none

/-- The values of the functions from `n` on. -/
def functionValues (n : Nat) : List WrittenFunction → List PNValue
  | [] => []
  | f :: fs => ⟨.function n, f.typeId⟩ :: functionValues (n + 1) fs

/-- The id of the first value that an instruction of this body defines. -/
def WrittenModule.base (m : WrittenModule) (f : WrittenFunction) (w : WrittenBody) : Nat :=
  m.functions.length + ((m.argTypes f).length + w.constants.length)

/-- The module with these functions. -/
def WrittenModule.toModule (m : WrittenModule) (memory : PNMemory) (functions : List PNFunction) : PNModule :=
  { pnModuleInit memory with
    version := m.version
    types := m.types
    functions := functions
    values := functionValues 0 m.functions }

/-- The module in front of body `k`, when the functions will be `final`. -/
def WrittenModule.moduleAt (m : WrittenModule) (memory : PNMemory) (final : List PNFunction) (k : Nat) : PNModule :=
  m.toModule memory (final.take k ++ (m.functions.drop k).map m.declared)

/-- The function has a type of the table, and its other fields fit. -/
structure WrittenFunction.Ok (f : WrittenFunction) (types : List PNType) : Prop where
  type : ∃ isVarargs returnType argTypes, types[f.typeId]? = some (.function isVarargs returnType argTypes)
  callingConvention : f.callingConvention < 2 ^ 32
  linkage : f.linkage < 2 ^ 32

/-- The module can be written, and the passes turn its functions into `final`. -/
structure WrittenModule.Ok (m : WrittenModule) (host : PNHost) (dedupe : Bool) (fuel : Nat) (memory : PNMemory)
    (final : List PNFunction) : Prop where
  version : m.version < 2 ^ 32
  types : TableWritable m.types
  typesFuel : FuelFor fuel (encTypes m.types)
  functions : ∀ f ∈ m.functions, f.Ok m.types
  entriesFuel : 2 * m.functions.length + 2 < fuel
  length : final.length = m.functions.length
  protos : ∀ {k : Nat} {f : WrittenFunction}, m.functions[k]? = some f → f.body = none → final[k]? = some (m.declared f)
  bodies : ∀ {k : Nat} {f : WrittenFunction} {w : WrittenBody}, m.functions[k]? = some f → f.body = some w →
    w.Ok host dedupe (m.moduleAt memory final k) (m.base f w) ∧ w.FuelFor m.relative (m.base f w) fuel ∧
      ∃ f', final[k]? = some f' ∧
        pnFunctionPasses host (m.moduleAt memory final k) k (w.function (m.declared f) (m.argTypes f)) = .ok f'

/-! ## The file -/

def WrittenFunction.enc (f : WrittenFunction) : CodedRecord := (8, [f.typeId, f.callingConvention, f.body.isNone.toNat, f.linkage])

/-- The bodies of functions. -/
def WrittenModule.encBodies (m : WrittenModule) (width words : Nat) : Nat → List WrittenFunction → List Bool
  | _, [] => []
  | offset, f :: fs =>
    match f.body with
    | none => m.encBodies width words offset fs
    | some w =>
      let block := encSubblock width 12 offset fun offset =>
        encFunctionBlock w m.relative (m.base f w) offset width words width words
      block ++ m.encBodies width words (offset + block.length) fs

/-- The version, the types and the functions. -/
def WrittenModule.encFront (m : WrittenModule) (width words offset : Nat) : List Bool :=
  let version := encRecord width (1, [m.version])
  let types := encSubblock width 17 (offset + version.length) fun offset => encTypeBlock offset width words m.types
  version ++ types ++ (m.functions.map WrittenFunction.enc).flatMap (encRecord width)

/-- The entries of the module block. -/
def WrittenModule.enc (m : WrittenModule) (width words offset : Nat) : List Bool :=
  m.encFront width words offset ++ m.encBodies width words (offset + (m.encFront width words offset).length) m.functions

def encSignature (cs : List Char) : List Bool := cs.flatMap fun c => bitList 8 c.toNat

/-- The header of a file, without header fields. -/
def encFileHeader : List Bool := encSignature ['P', 'E', 'X', 'E'] ++ (bitList 16 0 ++ bitList 16 0)

/-- The file. -/
def WrittenModule.encFile (m : WrittenModule) (width words : Nat) : List Bool :=
  let front := encFileHeader ++ (bitList 2 pnEntrySubblock ++ encVbr 8 8)
  front ++ encBlock front.length width words (m.enc width words (front.length + (encHeader front.length width words).length))

/-- The calls of the callbacks for bodies, from function `k` on. -/
def WrittenModule.bodyEvents (m : WrittenModule) : Nat → List WrittenFunction → List PNReadEvent
  | _, [] => []
  | k, f :: fs =>
    match f.body with
    | none => m.bodyEvents (k + 1) fs
    | some w => w.events k m.types.length ++ m.bodyEvents (k + 1) fs

/-- The state when the module is `module`. -/
def WrittenModule.state (m : WrittenModule) (module : PNModule) (events : List PNReadEvent) : PNReadState :=
  ⟨module, { useRelativeIds := m.relative }, [.typeNumEntries m.types.length] ++ events⟩

/-! ## Functions -/

section Functions

variable {host : PNHost} {dedupe : Bool} {fuel stop width words : Nat} {m : WrittenModule} {f : WrittenFunction} {s : PNModuleState}
  {rest : List Bool} {bs : PNBitStream}

/-- The module with one more function. -/
def PNModule.withFunction (module : PNModule) (f : PNFunction) : PNModule :=
  pnModuleAppendValue { module with functions := module.functions ++ [f] } ⟨.function module.functions.length, f.typeId⟩

/-- The state behind a FUNCTION record. -/
def PNModuleState.withFunction (s : PNModuleState) (m : WrittenModule) (f : WrittenFunction) : PNModuleState :=
  { s with rs := { s.rs with module := s.rs.module.withFunction (m.declared f) } }

theorem WrittenFunction.Ok.hasTypeId {types : List PNType} (h : f.Ok types) (hsmall : types.length < 2 ^ 16) :
    f.typeId < 2 ^ 16 ∧ f.typeId < types.length := by
  obtain ⟨_, _, _, ht⟩ := h.type
  have hlt := (List.getElem?_eq_some_iff.mp ht).1
  exact ⟨by omega, hlt⟩

theorem WrittenFunction.Ok.type_eq (host : PNHost) (h : f.Ok m.types) {module : PNModule} (hm : module.types = m.types) :
    ∃ isVarargs returnType, module.type host f.typeId = .function isVarargs returnType (m.argTypes f) := by
  obtain ⟨isVarargs, returnType, argTypes, ht⟩ := h.type
  refine ⟨isVarargs, returnType, ?_⟩
  rw [PNModule.type, hm, List.getD_eq_getElem?_getD, ht, WrittenModule.argTypes, ht]
  rfl

theorem moduleBlock_takes_function (host : PNHost) (dedupe : Bool) (hfuel : 0 < fuel) (hf : f.Ok m.types)
    (hsmall : m.types.length < 2 ^ 16) (hm : s.rs.module.types = m.types) :
    (pnModuleBlock host dedupe fuel).TakesRecord s f.enc (s.withFunction m f) := by
  intro reader stop rest h
  have hid : s.rs.module.HasTypeId f.typeId := by
    rw [PNModule.HasTypeId, hm]
    exact hf.hasTypeId hsmall
  obtain ⟨isVarargs, returnType, htype⟩ := hf.type_eq host hm
  obtain ⟨r₁, h₁, b₁⟩ := PNRecordReader.Before.readUint32 h hid.lt "type_id"
  obtain ⟨r₂, h₂, b₂⟩ := b₁.readUint32 hf.callingConvention "calling_convention"
  have hproto : f.body.isNone.toNat < 2 ^ 32 := Nat.lt_trans (Bool.toNat_lt _) (by decide)
  obtain ⟨r₃, h₃, b₃⟩ := b₂.readUint32 hproto "is_proto"
  obtain ⟨r₄, h₄, b₄⟩ := b₃.readUint32 hf.linkage "linkage"
  obtain ⟨bs, hend, hg⟩ := b₄.finish hfuel (s.withFunction m f)
  have hisProto : decide (f.body.isNone.toNat % 2 ^ 8 ≠ 0) = f.body.isNone := by cases f.body.isNone <;> rfl
  refine ⟨bs, ?_, hg⟩
  simp only [pnModuleBlock, WrittenFunction.enc, readFunction, h₁, h₂, h₃, h₄, ok_bind, hid.check, hid.toTypeId_eq, htype, hisProto]
  exact hend

theorem functionValues_append (gs : List WrittenFunction) : ∀ {fs : List WrittenFunction} {n : Nat},
    functionValues n (fs ++ gs) = functionValues n fs ++ functionValues (n + fs.length) gs
  | [], _ => rfl
  | f :: fs, n => by
    rw [List.cons_append, functionValues, functionValues, functionValues_append gs, List.length_cons, List.cons_append,
      Nat.add_assoc, Nat.add_comm 1]

theorem length_functionValues : ∀ {fs : List WrittenFunction} {n : Nat}, (functionValues n fs).length = fs.length
  | [], _ => rfl
  | _ :: _, _ => by rw [functionValues, List.length_cons, length_functionValues, List.length_cons]

/-- All functions are declared. -/
theorem moduleBlock_takes_functions (host : PNHost) (dedupe : Bool) (hfuel : 0 < fuel) (hsmall : m.types.length < 2 ^ 16) :
    ∀ (todo done : List WrittenFunction) {s : PNModuleState}, s.rs.module.types = m.types → (∀ f ∈ todo, f.Ok m.types) →
    s.rs.module.functions = done.map m.declared → s.rs.module.values = functionValues 0 done →
    (pnModuleBlock host dedupe fuel).Takes s (todo.map WrittenFunction.enc)
      { s with rs := { s.rs with module := { s.rs.module with
        functions := (done ++ todo).map m.declared
        values := functionValues 0 (done ++ todo) } } }
  | [], done, s, _, _, hfun, hval => by
    rw [List.append_nil, ← hfun, ← hval]
    exact .nil s
  | f :: todo, done, s, hm, hf, hfun, hval => by
    have htake := moduleBlock_takes_function host dedupe hfuel (hf f (List.mem_cons_self ..)) hsmall hm
    have hlen : s.rs.module.functions.length = done.length := by rw [hfun, List.length_map]
    have hfun' : (s.withFunction m f).rs.module.functions = (done ++ [f]).map m.declared := by
      rw [List.map_append, ← hfun]
      rfl
    have hval' : (s.withFunction m f).rs.module.values = functionValues 0 (done ++ [f]) := by
      rw [functionValues_append, ← hval, Nat.zero_add, ← hlen]
      rfl
    have hrest := moduleBlock_takes_functions host dedupe hfuel hsmall todo (done ++ [f]) (s := s.withFunction m f) hm
      (fun g hg => hf g (List.mem_cons_of_mem _ hg)) hfun' hval'
    rw [List.append_assoc, List.singleton_append] at hrest
    exact .cons (show 8 < 2 ^ 32 by decide) htake hrest

end Functions

/-! ## Bodies -/

section Bodies

variable {host : PNHost} {dedupe : Bool} {fuel stop width words k functionId : Nat} {m : WrittenModule} {memory : PNMemory}
  {final fs : List PNFunction} {f : WrittenFunction} {g : PNFunction} {w : WrittenBody} {events : List PNReadEvent}
  {rest : List Bool} {bs : PNBitStream} {abbrevs : List PNAbbrev}

/-- The next function that has a body. -/
theorem skipProtos_eq (hg : fs[k]? = some g) (hbody : g.isProto = false) : ∀ (n functionId : Nat), functionId + n = k →
    (∀ j, functionId ≤ j → j < k → ∃ p, fs[j]? = some p ∧ p.isProto = true) → skipProtos fs functionId = k
  | 0, functionId, hn, _ => by
    rw [Nat.add_zero] at hn
    obtain ⟨hlt, heq⟩ := List.getElem?_eq_some_iff.mp hg
    rw [skipProtos, hn, List.drop_eq_getElem_cons hlt, heq, List.takeWhile_cons, hbody]
    simp
  | n + 1, functionId, hn, hp => by
    obtain ⟨p, hget, hproto⟩ := hp functionId (Nat.le_refl _) (by omega)
    obtain ⟨hlt, heq⟩ := List.getElem?_eq_some_iff.mp hget
    have ih := skipProtos_eq hg hbody n (functionId + 1) (by omega) fun j hj => hp j (by omega)
    rw [skipProtos] at ih ⊢
    rw [List.drop_eq_getElem_cons hlt, heq, List.takeWhile_cons, hproto]
    simp only [if_true, List.length_cons]
    omega

theorem WrittenModule.moduleAt_functions (m : WrittenModule) (memory : PNMemory) (final : List PNFunction) (k : Nat) :
    (m.moduleAt memory final k).functions = final.take k ++ (m.functions.drop k).map m.declared := rfl

/-- The function at `k` in front of body `k`. -/
theorem WrittenModule.moduleAt_get (memory : PNMemory) (hlen : final.length = m.functions.length) (hf : m.functions[k]? = some f) :
    (m.moduleAt memory final k).functions[k]? = some (m.declared f) := by
  obtain ⟨hlt, heq⟩ := List.getElem?_eq_some_iff.mp hf
  have htake : (final.take k).length = k := by
    rw [List.length_take]
    omega
  rw [m.moduleAt_functions, List.getElem?_append_right (by omega), htake, Nat.sub_self, List.drop_eq_getElem_cons hlt, heq]
  rfl

/-- The functions in front of `k` are final. -/
theorem WrittenModule.moduleAt_get_of_lt (memory : PNMemory) {j : Nat} (hlen : final.length = m.functions.length) (hj : j < k)
    {p : PNFunction} (hp : final[j]? = some p) : (m.moduleAt memory final k).functions[j]? = some p := by
  have hjlt := (List.getElem?_eq_some_iff.mp hp).1
  rw [m.moduleAt_functions, List.getElem?_append_left (by rw [List.length_take]; omega), List.getElem?_take_of_lt hj, hp]

/-- The functions behind body `k`. -/
theorem WrittenModule.moduleAt_set (memory : PNMemory) (hlen : final.length = m.functions.length) (hf : m.functions[k]? = some f)
    (hg : final[k]? = some g) : (m.moduleAt memory final k).functions.set k g = (m.moduleAt memory final (k + 1)).functions := by
  obtain ⟨hlt, heq⟩ := List.getElem?_eq_some_iff.mp hf
  have htake : (final.take k).length = k := by
    rw [List.length_take]
    omega
  have hset : (final.take k ++ m.declared f :: (m.functions.drop (k + 1)).map m.declared).set k g =
      final.take k ++ g :: (m.functions.drop (k + 1)).map m.declared := by
    rw [List.set_append_right _ _ (by omega), htake, Nat.sub_self, List.set_cons_zero]
  rw [m.moduleAt_functions, m.moduleAt_functions, List.drop_eq_getElem_cons hlt, heq, List.map_cons, hset, List.take_add_one, hg,
    List.append_assoc]
  rfl

theorem WrittenModule.moduleAt_succ (memory : PNMemory) (hlen : final.length = m.functions.length) (hf : m.functions[k]? = some f)
    (hg : final[k]? = some (m.declared f)) : m.moduleAt memory final (k + 1) = m.moduleAt memory final k := by
  have hset := WrittenModule.moduleAt_set memory hlen hf hg
  obtain ⟨hlt, heq⟩ := List.getElem?_eq_some_iff.mp (WrittenModule.moduleAt_get memory hlen hf)
  have hself := List.set_getElem_self hlt
  rw [heq] at hself
  rw [WrittenModule.moduleAt, WrittenModule.moduleAt]
  exact congrArg (m.toModule memory) (hset.symm.trans hself)

theorem length_constantDefs : ∀ {cs : List PNConstant} {n : Nat}, (constantDefs n cs).length = cs.length
  | [], _ => rfl
  | _ :: _, _ => by rw [constantDefs, List.length_cons, length_constantDefs, List.length_cons]

theorem WrittenModule.base_eq (m : WrittenModule) (memory : PNMemory) (final : List PNFunction) (k : Nat) (f : WrittenFunction)
    (w : WrittenBody) : w.base (m.moduleAt memory final k) (m.declared f) (m.argTypes f) = m.base f w := by
  rw [WrittenBody.base, pnFunctionNumValues, WrittenModule.base]
  change (functionValues 0 m.functions).length + _ = _
  rw [length_functionValues]
  simp [PNFunction.withConstants, appendArgs, WrittenModule.declared, length_constantDefs]

/-- The number of bodies. -/
def numBodies (fs : List WrittenFunction) : Nat := (fs.filterMap WrittenFunction.body).length

/-- A body is one entry of the module block. -/
theorem moduleBlock_reads_body (abbrevs : List PNAbbrev) (stop : Nat) (events : List PNReadEvent)
    (hw : m.Ok host dedupe fuel memory final) (hwidth : 2 ≤ width) (hle : width ≤ 32)
    (hwords : words < 2 ^ 32) (hf : m.functions[k]? = some f) (hbody : f.body = some w)
    (hid : skipProtos (m.moduleAt memory final k).functions functionId = k) :
    (pnModuleBlock host dedupe fuel).Reads host width abbrevs 1 stop
      (encSubblock width 12 stop fun offset => encFunctionBlock w m.relative (m.base f w) offset width words width words)
      ⟨m.state (m.moduleAt memory final k) events, functionId⟩
      ⟨m.state (m.moduleAt memory final (k + 1)) (events ++ w.events k m.types.length), k + 1⟩ := by
  obtain ⟨hok, hfuel, g, hg, hpass⟩ := hw.bodies hf hbody
  have hget := WrittenModule.moduleAt_get memory hw.length hf
  have hset := WrittenModule.moduleAt_set memory hw.length hf hg
  obtain ⟨isVarargs, returnType, htype⟩ := (hw.functions f (List.mem_of_getElem? hf)).type_eq host
    (show (m.moduleAt memory final k).types = m.types from rfl)
  rw [← m.base_eq memory final k f w] at hok hfuel ⊢
  refine PNBlockReader.Reads.subblock hwidth hle (show 12 < 2 ^ 32 by decide)
    (fun h => by simp only [pnModuleBlock, h, ok_bind]; rfl) ?_
  intro b₁ start rest h
  obtain ⟨bs', hread, hgoes⟩ := functionBody_decodes
    (show (m.state (m.moduleAt memory final k) events).module.functions[k]? = some (m.declared f) from hget) htype rfl hok hfuel
    hwidth hle hwords hwidth hle hwords h
  have hread' : pnFunctionBlockRead host dedupe fuel (m.state (m.moduleAt memory final k) events) k b₁ =
      .ok (m.state (m.moduleAt memory final (k + 1)) (events ++ w.events k m.types.length), bs') := by
    have hpass' : pnFunctionPasses host (m.state (m.moduleAt memory final k) events).module k
        (w.function (m.declared f) (m.argTypes f)) = .ok g := hpass
    have hmodule : { m.moduleAt memory final k with functions := (m.moduleAt memory final k).functions.set k g } =
        m.moduleAt memory final (k + 1) := congrArg (m.toModule memory) hset
    rw [hread, hpass', ok_bind, ← hmodule, WrittenModule.state, WrittenModule.state, ← List.append_assoc]
    rfl
  have hk : k < (m.moduleAt memory final k).functions.length := (List.getElem?_eq_some_iff.mp hget).1
  have hid' : skipProtos (m.state (m.moduleAt memory final k) events).module.functions functionId = k := hid
  refine ⟨bs', ?_, hgoes⟩
  rw [hid', pnFunctionIdCheck]
  exact (pnCheck_bind hk).trans (congrArg (fun x => x >>= _) hread')

/-- All bodies. -/
theorem moduleBlock_reads_bodies (abbrevs : List PNAbbrev) (hw : m.Ok host dedupe fuel memory final) (hwidth : 2 ≤ width)
    (hle : width ≤ 32) (hwords : words < 2 ^ 32) : ∀ (todo : List WrittenFunction) (k functionId stop : Nat)
    (events : List PNReadEvent),
    m.functions.drop k = todo → functionId ≤ k →
    (∀ j, functionId ≤ j → j < k → ∃ p, m.functions[j]? = some p ∧ p.body = none) →
    ∃ s', (pnModuleBlock host dedupe fuel).Reads host width abbrevs (numBodies todo) stop (m.encBodies width words stop todo)
        ⟨m.state (m.moduleAt memory final k) events, functionId⟩ s' ∧
      s'.rs = m.state (m.toModule memory final) (events ++ m.bodyEvents k todo)
  | [], k, functionId, stop, events, hdrop, _, _ => by
    have hk : m.functions.length ≤ k := List.drop_eq_nil_iff.mp hdrop
    have hall : m.moduleAt memory final k = m.toModule memory final := by
      rw [WrittenModule.moduleAt, hdrop, List.take_of_length_le (Nat.le_trans (Nat.le_of_eq hw.length) hk), List.map_nil,
        List.append_nil]
    refine ⟨⟨m.state (m.moduleAt memory final k) events, functionId⟩, ?_, ?_⟩
    · intro rest bs n h
      exact ⟨bs, rfl, h⟩
    · simp only [hall, WrittenModule.bodyEvents, List.append_nil]
  | f :: todo, k, functionId, stop, events, hdrop, hid, hprotos => by
    have hf : m.functions[k]? = some f := by
      rw [← List.head?_drop, hdrop]
      rfl
    have hdrop' : m.functions.drop (k + 1) = todo := by
      rw [← List.tail_drop, hdrop]
      rfl
    cases hbody : f.body with
    | none =>
      have hsucc := WrittenModule.moduleAt_succ memory hw.length hf (hw.protos hf hbody)
      have hprotos' : ∀ j, functionId ≤ j → j < k + 1 → ∃ p, m.functions[j]? = some p ∧ p.body = none := by
        intro j hge hlt
        rcases Nat.lt_succ_iff_lt_or_eq.mp hlt with hlt | rfl
        · exact hprotos j hge hlt
        · exact ⟨f, hf, hbody⟩
      have ih := moduleBlock_reads_bodies abbrevs hw hwidth hle hwords todo (k + 1) functionId stop events hdrop'
        (Nat.le_succ_of_le hid) hprotos'
      rw [hsucc] at ih
      simpa only [numBodies, List.filterMap_cons, hbody, WrittenModule.encBodies, WrittenModule.bodyEvents] using ih
    | some w =>
      have hproto : (m.declared f).isProto = false := by
        rw [WrittenModule.declared, hbody]
        rfl
      have hskip : skipProtos (m.moduleAt memory final k).functions functionId = k := by
        refine skipProtos_eq (WrittenModule.moduleAt_get memory hw.length hf) hproto _ _ (Nat.add_sub_of_le hid) fun j hge hlt => ?_
        obtain ⟨p, hp, hnone⟩ := hprotos j hge hlt
        refine ⟨m.declared p, WrittenModule.moduleAt_get_of_lt memory hw.length hlt (hw.protos hp hnone), ?_⟩
        rw [WrittenModule.declared, hnone]
        rfl
      have hone := moduleBlock_reads_body abbrevs stop events hw hwidth hle hwords hf hbody hskip
      obtain ⟨s', hrest, hrs⟩ := moduleBlock_reads_bodies abbrevs hw hwidth hle hwords todo (k + 1) (k + 1) _ _ hdrop'
        (Nat.le_refl _)
        fun j hge hlt => absurd hge (by omega)
      refine ⟨s', ?_, ?_⟩
      · simp only [numBodies, List.filterMap_cons, hbody, List.length_cons, WrittenModule.encBodies]
        exact hone.append hrest
      · rw [hrs, WrittenModule.bodyEvents, hbody, List.append_assoc]

end Bodies

/-! ## Files -/

section Files

variable {host : PNHost} {dedupe : Bool} {fuel stop width words : Nat} {m : WrittenModule} {memory : PNMemory}
  {final : List PNFunction} {rest : List Bool} {bs : PNBitStream} {abbrevs : List PNAbbrev}

/-- The state in front of the module block, and the one behind its VERSION record. -/
def startModule (memory : PNMemory) : PNModuleState := ⟨⟨pnModuleInit memory, {}, []⟩, 0⟩

def WrittenModule.versioned (m : WrittenModule) (memory : PNMemory) : PNModuleState :=
  ⟨⟨{ pnModuleInit memory with version := m.version }, { useRelativeIds := m.relative }, []⟩, 0⟩

/-- The state behind the types. -/
def WrittenModule.typed (m : WrittenModule) (memory : PNMemory) : PNModuleState :=
  ⟨⟨{ pnModuleInit memory with version := m.version, types := m.types }, { useRelativeIds := m.relative },
    [.typeNumEntries m.types.length]⟩, 0⟩

theorem moduleBlock_takes_version (hfuel : 0 < fuel) (hv : m.version < 2 ^ 32) :
    (pnModuleBlock host dedupe fuel).TakesRecord (startModule memory) (1, [m.version]) (m.versioned memory) := by
  intro reader stop rest h
  obtain ⟨r₁, h₁, b₁⟩ := h.readUint32 hv "module version"
  obtain ⟨bs, hf, hg⟩ := b₁.finish hfuel (m.versioned memory)
  refine ⟨bs, ?_, hg⟩
  simp only [pnModuleBlock, h₁, ok_bind]
  exact hf

/-- What stands in front of the bodies. -/
theorem moduleBlock_reads_front (abbrevs : List PNAbbrev) (hw : m.Ok host dedupe fuel memory final) (hwidth : 2 ≤ width)
    (hle : width ≤ 32) (hwords : words < 2 ^ 32) :
    (pnModuleBlock host dedupe fuel).Reads host width abbrevs (m.functions.length + (1 + 1)) stop (m.encFront width words stop)
      (startModule memory) ⟨m.state (m.moduleAt memory final 0) [], 0⟩ := by
  have hpos : 0 < fuel := Nat.lt_of_le_of_lt (Nat.zero_le _) hw.entriesFuel
  have hversion : (pnModuleBlock host dedupe fuel).Reads host width abbrevs 1 stop (encRecord width (1, [m.version]))
      (startModule memory) (m.versioned memory) :=
    (moduleBlock_takes_version hpos hw.version).reads (show 1 < 2 ^ 32 by decide) hwidth hle
  have htypes : (pnModuleBlock host dedupe fuel).Reads host width abbrevs 1 (stop + (encRecord width (1, [m.version])).length)
      (encSubblock width 17 (stop + (encRecord width (1, [m.version])).length) fun offset =>
        encTypeBlock offset width words m.types)
      (m.versioned memory) (m.typed memory) := by
    refine PNBlockReader.Reads.subblock hwidth hle (show 17 < 2 ^ 32 by decide)
      (fun h => by simp only [pnModuleBlock, h, ok_bind]; rfl) ?_
    intro b₁ start rest h
    obtain ⟨bs', h₂, hg₂⟩ := typeTable_decodes hw.types hwidth hle hwords hw.typesFuel h
    exact ⟨bs', congrArg (fun x => x >>= _) h₂, hg₂⟩
  have htakes := moduleBlock_takes_functions host dedupe hpos hw.types.ok.small m.functions [] (s := m.typed memory) rfl
    hw.functions rfl rfl
  have hfront := (hversion.append htypes).append (htakes.reads hwidth hle)
  rwa [List.length_map] at hfront

theorem readSignature_enc : ∀ {cs : List Char} {stop : Nat} {bs : PNBitStream}, (∀ c ∈ cs, c.toNat < 2 ^ 8) →
    bs.GoesOn stop (encSignature cs ++ rest) →
    ∃ bs', readSignature cs bs = .ok bs' ∧ bs'.GoesOn (stop + (encSignature cs).length) rest
  | [], _, bs, _, h => ⟨bs, rfl, h⟩
  | c :: cs, stop, bs, hc, h => by
    rw [encSignature, List.flatMap_cons, List.append_assoc] at h
    obtain ⟨b₁, h₁, hg₁⟩ := h.read (by decide) (hc c (List.mem_cons_self ..))
    obtain ⟨bs', h₂, hg₂⟩ := readSignature_enc (fun d hd => hc d (List.mem_cons_of_mem _ hd)) hg₁
    refine ⟨bs', ?_, ?_⟩
    · rw [readSignature, h₁, ok_bind]
      dsimp only
      rw [if_neg (fun h => h rfl), h₂]
    · rwa [encSignature, List.flatMap_cons, List.length_append, length_bitList, ← Nat.add_assoc]

theorem pnHeaderRead_enc (h : bs.GoesOn stop (encFileHeader ++ rest)) :
    ∃ bs', pnHeaderRead bs = .ok bs' ∧ bs'.GoesOn (stop + encFileHeader.length) rest := by
  rw [encFileHeader, List.append_assoc, List.append_assoc] at h
  have hsmall : ∀ c ∈ ['P', 'E', 'X', 'E'], c.toNat < 2 ^ 8 := by simp
  obtain ⟨b₁, h₁, hg₁⟩ := readSignature_enc hsmall h
  obtain ⟨b₂, h₂, hg₂⟩ := hg₁.read (by decide) (by decide)
  obtain ⟨b₃, h₃, hg₃⟩ := hg₂.read (by decide) (by decide)
  refine ⟨b₃, ?_, ?_⟩
  · rw [pnHeaderRead, h₁, ok_bind, h₂, ok_bind]
    dsimp only
    rw [h₃]
    rfl
  · simpa only [encFileHeader, List.length_append, length_bitList, Nat.add_assoc] using hg₃

/-- **Reading a module undoes writing it**: the file is accepted, and the reader leaves the version, the types and the functions
that were written, each function as the passes leave it. -/
theorem module_decodes (hw : m.Ok host dedupe fuel memory final) (hwidth : 2 ≤ width) (hle : width ≤ 32) (hwords : words < 2 ^ 32)
    (hlen : (m.encFile width words).length < 2 ^ 32 - 8) :
    ∃ bs', pnModuleRead host dedupe fuel (pnModuleInit memory) (fileOf (m.encFile width words)) =
      .ok (m.state (m.toModule memory final) (m.bodyEvents 0 m.functions), bs') := by
  have h : (fileOf (m.encFile width words)).GoesOn 0 (m.encFile width words ++ []) := by
    rw [List.append_nil]
    exact fileOf_goesOn hlen
  generalize fileOf (m.encFile width words) = bs at h ⊢
  simp only [WrittenModule.encFile] at h
  rw [List.append_assoc, List.append_assoc, List.append_assoc] at h
  obtain ⟨b₁, h₁, hg₁⟩ := pnHeaderRead_enc h
  obtain ⟨b₂, h₂, hg₂⟩ := hg₁.read (by decide) (by decide)
  obtain ⟨b₃, h₃, hg₃⟩ := hg₂.readVbr (by decide) (by decide) (by decide)
  have hfront : 0 + encFileHeader.length + 2 + (encVbr 8 8).length =
      (encFileHeader ++ (bitList 2 pnEntrySubblock ++ encVbr 8 8)).length := by
    simp only [List.length_append, length_bitList]
    omega
  rw [hfront] at hg₃
  obtain ⟨s', hbodies, hrs⟩ := moduleBlock_reads_bodies [] hw hwidth hle hwords m.functions 0 0 _ [] rfl (Nat.le_refl _)
    fun j _ hj => absurd hj (Nat.not_lt_zero j)
  have hfuel : numBodies m.functions + (m.functions.length + (1 + 1)) < fuel := by
    have hentries := hw.entriesFuel
    have hle := List.length_filterMap_le WrittenFunction.body m.functions
    rw [numBodies]
    omega
  obtain ⟨b₄, h₄, hg₄⟩ := readBlock_aligned hwidth hle hwords
    ((moduleBlock_reads_front [] hw hwidth hle hwords).append hbodies) hfuel (fun _ => rfl) hg₃
  refine ⟨b₄, ?_⟩
  rw [pnModuleRead, h₁, ok_bind, h₂, ok_bind]
  dsimp only
  rw [if_neg (fun h => h rfl), h₃, ok_bind]
  dsimp only
  rw [pnCheck_bind rfl, ← startModule, h₄, ok_bind, hrs]
  rfl

end Files

/-! ## A module that is written and read -/

theorem branch_ends : (PNInstruction.br 1 none PN_INVALID_VALUE_ID).isTerminator = true := rfl

/-- `%5 = add %2, 7`, then a branch to the block that returns what the prototype gives for `%5` and 7. -/
def callingBody : WrittenBody where
  constants := [⟨.integer, 0, .int32, some 7⟩]
  blocks := [⟨[(.binop 5 2 4 0 0, some ⟨.localVar, PN_INVALID_TYPE_ID⟩)], .br 1 none PN_INVALID_VALUE_ID,
      by decide, branch_ends⟩,
    ⟨[(.call 6 0 0 [5, 4] 0 false false, some ⟨.localVar, 0⟩)], .ret 6, by decide, rfl⟩]

/-- A prototype i32(i32, i32), and a function with this body. -/
def writtenModule : WrittenModule where
  version := 1
  types := [.integer 32 .int32, .function 0 0 [0, 0]]
  functions := [⟨1, 0, 0, none⟩, ⟨1, 0, 3, some callingBody⟩]

theorem writtenModule_types : TableWritable writtenModule.types := by
  refine ⟨⟨by decide, by decide, by decide⟩, ?_, ?_⟩
  · intro width basicType h
    simp only [writtenModule, List.mem_cons, PNType.integer.injEq, reduceCtorEq, List.not_mem_nil, or_false] at h
    obtain ⟨rfl, rfl⟩ := h
    rfl
  · intro isVarargs returnType argTypes h
    simp only [writtenModule, List.mem_cons, PNType.function.injEq, reduceCtorEq, List.not_mem_nil, false_or, or_false] at h
    rw [h.1]
    decide

theorem callingBody_ok {memory : PNMemory} {g : PNFunction} :
    callingBody.Ok zeroHost true (writtenModule.moduleAt memory [writtenModule.declared ⟨1, 0, 0, none⟩, g] 1) 5 where
  constants c hc := by
    rw [List.mem_singleton.mp hc]
    exact @ConstantWritable.integer zeroHost (writtenModule.moduleAt memory [writtenModule.declared ⟨1, 0, 0, none⟩, g] 1) 0 7
      ⟨by decide, show 0 < 2 by decide⟩ rfl (show 7 < 2 ^ 32 by decide)
  instructions := ⟨.binop (by decide) (by decide) (by decide) (by decide), .br (by decide),
    .call (.inl (by decide)) (by decide) (by decide) rfl ⟨rfl, rfl⟩, .ret (by decide), trivial⟩
  blocks := by decide

theorem module_decodes_written : ∃ final bs', pnModuleRead zeroHost true 12 (pnModuleInit ⟨fun _ => 0, 2 ^ 16⟩)
      (fileOf (writtenModule.encFile 4 9)) =
    .ok (writtenModule.state (writtenModule.toModule ⟨fun _ => 0, 2 ^ 16⟩ final)
      (writtenModule.bodyEvents 0 writtenModule.functions), bs') := by
  obtain ⟨g, hg⟩ : ∃ g, pnFunctionPasses zeroHost
      (writtenModule.moduleAt ⟨fun _ => 0, 2 ^ 16⟩ [writtenModule.declared ⟨1, 0, 0, none⟩] 1) 1
      (callingBody.function (writtenModule.declared ⟨1, 0, 3, some callingBody⟩) [0, 0]) = .ok g := ⟨_, rfl⟩
  refine ⟨[writtenModule.declared ⟨1, 0, 0, none⟩, g], module_decodes ?_ (by decide) (by decide) (by decide) (by decide +kernel)⟩
  refine ⟨by decide, writtenModule_types, ⟨by decide, by decide⟩, ?_, by decide, rfl, ?_, ?_⟩
  · intro f hf
    rcases List.mem_cons.mp hf with rfl | hf
    · exact ⟨⟨0, 0, [0, 0], rfl⟩, by decide, by decide⟩
    · rw [List.mem_singleton.mp hf]
      exact ⟨⟨0, 0, [0, 0], rfl⟩, by decide, by decide⟩
  · intro k f hf hbody
    rcases k with _ | _ | k
    · cases hf
      rfl
    · cases hf
      cases hbody
    · cases hf
  · intro k f w hf hbody
    rcases k with _ | _ | k
    · cases hf
      cases hbody
    · cases hf
      cases hbody
      exact ⟨callingBody_ok, ⟨by decide, by decide, by decide⟩, g, rfl, hg⟩
    · cases hf

end Pnacl
