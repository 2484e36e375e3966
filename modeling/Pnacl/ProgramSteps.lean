import Pnacl.ProgramRead

/-!
# The frames of a program

The calls that have not returned are the frames on the chain: each frame holds the values of its call and remembers the CALL where
it goes on (`AtProgram`). An instruction of a body keeps the frames below it (`AtProgram.body`), a CALL puts a frame on top
(`AtProgram.call`), and a return takes it away with all that was allocated for it (`AtProgram.ret`, `AtProgram.retValue`).
-/

namespace Pnacl

open Lib

/-! ## What the executor needs -/

/-- Every edge assigns its phis at once, there is a value, and counts and ids fit. -/
structure PNFunction.Executable (module : PNModule) (f : PNFunction) : Prop where
  code : ∃ base stream, f.instructions = some (base, stream) ∧ base ≠ 0
  edges : f.EdgesKept
  values : 0 < f.values.length
  size : f.values.length < 2 ^ 28
  ids : module.values.length + f.values.length ≤ PN_INVALID_VALUE_ID
  room : f.numArgs + f.constants.length ≤ f.values.length
  calls : ∀ {res convention calleeId returnTypeId : Nat} {argIds : List Nat} {isIndirect isTailCall : Bool},
    .call res convention calleeId argIds returnTypeId isIndirect isTailCall ∈ f.insts → argIds.length < 2 ^ 8

/-- The executor has been made for a module that was read, each body behind the tables and the names. -/
structure ReadFor (host : PNHost) (fuel : Nat) (module : PNModule) (ex : PNExecutor) : Prop where
  executor : ExecutorOf host module ex
  globals : ∀ {id p : Nat}, module.globalValue id = some p → ex.moduleValues id % 2 ^ 32 = p % 2 ^ 32
  bodies : ∀ {functionId : Nat} {f : PNFunction}, module.functions[functionId]? = some f → f.bbs ≠ [] →
    BodyNamed host true fuel module functionId f ∧ f.Executable module

/-- The stream of a function, with its calls. -/
structure CodeOf (host : PNHost) (module : PNModule) (ex : PNExecutor) (f : PNFunction) (base : Nat) (stream : PNIstream) :
    Prop where
  instructions : f.instructions = some (base, stream)
  base_ne : base ≠ 0
  compiled : Compiled host module ex f base stream
  call : ∀ {n k : Nat} {bb : PNBasicBlock} {res convention calleeId returnTypeId : Nat} {argIds : List Nat}
    {isIndirect isTailCall : Bool}, f.bbs[n]? = some bb →
    bb.instructions[k]? = some (.call res convention calleeId argIds returnTypeId isIndirect isTailCall) →
    ∃ opcode flags, stream.at (f.blockAddr base n + instsSize (bb.instructions.take k)) =
        some (.call opcode res calleeId argIds.length flags argIds) ∧ (flags % 2 = 1 ↔ isIndirect = true) ∧
      ex.callAt (f.blockAddr base n + instsSize (bb.instructions.take k)) = ⟨res, argIds⟩ ∧
      ((isIndirect = true ∨ ∃ functionId typeId g, module.values[calleeId]? = some ⟨.function functionId, typeId⟩ ∧
        module.functions[functionId]? = some g ∧ g.intrinsicId = .null) → opcode = .call)

section

variable {host : PNHost} {fuel : Nat} {module module' : PNModule} {ex : PNExecutor} {memory : PNMemory} {bs bs' : PNBitStream}
  {rs : PNReadState} {f f' : PNFunction} {functionId base addr : Nat} {stream : PNIstream} {offsets : List Nat}

end

/-! ## The frames of a program -/

/-- The frame of a call: where it goes on, and its values. Its values were the last allocation for it. -/
structure AtActivation (host : PNHost) (module : PNModule) (ex : PNExecutor) (f : PNFunction) (base : Nat) (mem : PNWords)
    (inst : Nat) (x : Entry) (a : Activation) : Prop where
  functionId : x.functionId = a.functionId
  last : x.alloc.lastAlloc = x.values
  inst : ∃ bb, f.bbs[a.block]? = some bb ∧ inst = f.blockAddr base a.block + instsSize (bb.instructions.take a.index)
  types : ∀ id v, a.values id = some v → basicTypeOf host module f id = .ok v.type
  values : ∀ id v, a.values id = some v → Holds v.type (frameValue ex mem x id) v.bits

/-- The same, in the body of its function. -/
def AtFrame (host : PNHost) (module : PNModule) (ex : PNExecutor) (mem : PNWords) (inst : Nat) (x : Entry) (a : Activation) :
    Prop :=
  ∃ f base stream, module.functions[a.functionId]? = some f ∧ CodeOf host module ex f base stream ∧ f.Executable module ∧
    AtActivation host module ex f base mem inst x a

/-- The executor is where the run of the program is: the frames are the calls that have not returned. -/
structure AtProgram (host : PNHost) (module : PNModule) (ex : PNExecutor) (s : ProgramState) (th : PNThread) (e : Entry)
    (es : List Entry) : Prop where
  frames : FramesInv ex th (e :: es)
  alloc : th.allocator = e.alloc
  memory : th.memory = s.memory
  running : AtFrame host module ex th.mem th.inst e s.running
  waiting : List.Forall₂ (fun x a => AtFrame host module ex th.mem (readFrame th.mem x.addr).location.inst x a) es s.waiting

section

variable {host : PNHost} {fuel : Nat} {module : PNModule} {ex : PNExecutor} {f g : PNFunction} {base inst : Nat}
  {stream : PNIstream} {mem mem' : PNWords} {x e e' : Entry} {es : List Entry} {a : Activation} {bs : List PNBlock}
  {th th' : PNThread} {s s' : ProgramState}

theorem AtActivation.hasValue (h : AtActivation host module ex f base mem inst x a) (hex : ExecutorOf host module ex)
    (hf : module.functions[a.functionId]? = some f) {id : Nat} {v : LlvmValue} (hv : a.values id = some v) : x.HasValue ex id := by
  unfold Entry.HasValue
  rw [h.functionId, hex.functions hf, hex.numValues]
  exact basicTypeOf_lt (h.types id v hv)

/-- The frames below keep their values and the places where they go on. -/
theorem AtFrame.same (h : AtFrame host module ex mem inst x a) (hex : ExecutorOf host module ex) (hs : SameOn mem mem' bs)
    (hb : x.valuesBlock ex ∈ bs) : AtFrame host module ex mem' inst x a := by
  obtain ⟨f, base, stream, hf, hcode, hexec, hat⟩ := h
  refine ⟨f, base, stream, hf, hcode, hexec, hat.functionId, hat.last, hat.inst, hat.types, fun id v hv => ?_⟩
  rw [frameValue_same hs hb (hat.hasValue hex hf hv)]
  exact hat.values id v hv

theorem forall₂_of_mem {α β : Type} {R R' : α → β → Prop} : ∀ {as : List α} {bs : List β}, List.Forall₂ R as bs →
    (∀ a ∈ as, ∀ b, R a b → R' a b) → List.Forall₂ R' as bs
  | _, _, .nil, _ => .nil
  | _, _, .cons h hs, hR =>
    .cons (hR _ (List.mem_cons_self ..) _ h) (forall₂_of_mem hs fun a ha b => hR a (List.mem_cons_of_mem _ ha) b)

theorem waiting_same {es : List Entry} {as : List Activation} (hex : ExecutorOf host module ex)
    (hs : SameOn mem mem' (baseBlocks ex es))
    (h : List.Forall₂ (fun x a => AtFrame host module ex mem (readFrame mem x.addr).location.inst x a) es as) :
    List.Forall₂ (fun x a => AtFrame host module ex mem' (readFrame mem' x.addr).location.inst x a) es as := by
  refine forall₂_of_mem h fun x hx a hat => ?_
  rw [hs.readFrame (frameBlock_mem hx)]
  exact hat.same hex hs (valuesBlock_mem hx)

/-- A reset to a mark is found if the last block of the mark is not empty. -/
theorem markFound_of_last {a : PNAllocator} {b : PNBlock} {m : PNAllocatorMark} (hi : a.Inv) (hb : b.AllocatedIn a)
    (hpos : 0 < b.size) (hm : m.lastAlloc = b.addr) : MarkFound a m := by
  intro d hd heq
  obtain ⟨c, hc, hlo, hhi⟩ := hb
  have hcur := (hi.wf c hc).current_le
  have hdcur := (hi.wf d hd).current_le
  have hdhead := (hi.wf d hd).header_le
  rw [hm] at heq
  by_cases hcd : d = c
  · subst hcd
    omega
  · have hdis := hi.disjoint.forall hd hc hcd
    simp only [PNAllocatorChunk.Disjoint] at hdis
    simp only [PNAllocatorChunk.sizeof] at hlo hdhead
    omega

/-- So the return into a frame on the chain finds its mark. -/
theorem AtFrame.markFound (h : AtFrame host module ex mem inst x a) (hex : ExecutorOf host module ex) {al : PNAllocator}
    (hi : al.Inv) (hb : (x.valuesBlock ex).AllocatedIn al) : MarkFound al (pnAllocatorMark x.alloc) := by
  obtain ⟨f, base, stream, hf, -, hexec, hat⟩ := h
  refine markFound_of_last hi hb ?_ hat.last
  have hpos := hexec.values
  simp only [Entry.valuesBlock, PNRuntimeValue.sizeof]
  rw [hat.functionId, hex.functions hf]
  simp only [PNFunction.runtime]
  omega

/-- The running call is at an instruction of its body. -/
theorem AtProgram.atBody (h : AtProgram host module ex s th e es) (hex : ExecutorOf host module ex)
    (hf : module.functions[s.running.functionId]? = some f) : ∃ base stream, CodeOf host module ex f base stream ∧
      f.Executable module ∧ e.functionId = s.running.functionId ∧
      AtBody host module ex f base (s.running.body s.memory) th := by
  have hmark := h.running.markFound hex h.frames.inv
    (h.frames.levels.allocated _ (valuesBlock_mem (List.mem_cons_self ..)))
  obtain ⟨f', base, stream, hf', hcode, hexec, hat⟩ := h.running
  cases hf.symm.trans hf'
  have hstate := h.frames.frameState
  rw [hat.functionId, hex.functions hf] at hstate
  refine ⟨base, stream, hcode, hexec, hat.functionId, hstate, ?_, hat.inst, h.memory, hat.types, fun id v hv => ?_⟩
  · rw [h.alloc] at hmark ⊢
    exact hmark
  · rw [h.frames.getValue_eq]
    exact hat.values id v hv

/-! ## Instructions of a body -/

/-- A step that keeps the running frame, all that is allocated, and the frames below. -/
structure StaysIn (ex : PNExecutor) (th th' : PNThread) (e : Entry) (es : List Entry) : Prop where
  inv : FramesInv ex th' (e :: es)
  same : SameOn th.mem th'.mem (baseBlocks ex es)
  alloc : th'.allocator = th.allocator

theorem StaysIn.withInst (h : StaysIn ex th th' e es) (inst : Nat) : StaysIn ex th { th' with inst := inst } e es :=
  ⟨h.inv.fields rfl rfl rfl rfl, h.same, h.alloc⟩

theorem StaysIn.of_calm (h : FramesInv ex th (e :: es)) (c : Calm ex th th' e es) : StaysIn ex th th' e es := by
  refine ⟨h.calm c, fun b hb => c.same b (List.mem_cons_of_mem _ hb), ?_⟩
  rw [c.eq]

/-- An instruction of a body keeps the frames below. -/
theorem AtBody.stays {s s' : BodyState} {other : PNRuntimeInstruction → PNThread → Except Stop PNThread} {sh : StepHost}
    (h : AtBody host module ex f base s th) (hfr : FramesInv ex th (e :: es))
    (hn : (ex.functions e.functionId).numValues = f.values.length) (hc : Compiled host module ex f base stream)
    (hids : ex.numValues + f.values.length ≤ PN_INVALID_VALUE_ID) (hkept : f.EdgesKept) (hm : MallocFresh ex sh.malloc)
    (hs : BodyStep host module f s s') (he : executeInstruction ex stream other sh th = .ok th') : StaysIn ex th th' e es := by
  cases hs with
  | @value bb inst id v hbb hinst hval hty =>
    obtain ⟨offsets, module', f', stored, hl⟩ := hc.lowered hbb hinst
    obtain ⟨w, -, hexec⟩ := hval.executes other sh hl h.types h.values h.memory (h.block_eq hbb)
    rw [hexec] at he
    obtain ⟨th₁, hset, he⟩ := bind_eq_ok.mp he
    cases he
    have hlt : e.HasValue ex id := by
      unfold Entry.HasValue
      rw [hn, hc.numValues]
      exact basicTypeOf_lt hty
    exact (StaysIn.of_calm hfr (hfr.setValue hlt hset)).withInst _
  | @store bb inst m hbb hinst hst =>
    obtain ⟨offsets, module', f', stored, hl⟩ := hc.lowered hbb hinst
    have hlow := hl.lowered
    have hstream := hl.stream
    rw [← h.block_eq hbb] at hstream
    cases hst
    obtain ⟨t0, -, hlow⟩ := bind_eq_ok.mp hlow
    obtain ⟨destType, -, hlow⟩ := bind_eq_ok.mp hlow
    split at hlow
    · cases hlow
    · obtain ⟨opcode, ho, hlow⟩ := bind_eq_ok.mp hlow
      cases hlow
      obtain ⟨-, rfl⟩ := ifType_eq_ok ho
      simp only [executeInstruction, hstream _ rfl] at he
      obtain ⟨m, -, he⟩ := bind_eq_ok.mp he
      cases he
      exact ⟨hfr.fields rfl rfl rfl rfl, .refl _ _, rfl⟩
  | @branch bb S inst t hbb hinst hend ht hS hphi =>
    obtain ⟨_, module', f', stored, hl⟩ := hc.lowered hbb hinst
    have hat := h.block_eq hbb
    obtain ⟨hbr, hexec⟩ := ht.executes other sh hl h.types h.values hat hS
    obtain ⟨hlast, htake⟩ := getLast?_of_end hinst hend
    obtain ⟨offsets, hblock⟩ := hc.branch hbb hlast hbr
    obtain ⟨hlen, hedges⟩ := hkept _ bb hbb
    obtain ⟨halone, -⟩ := hedges t S hS
    obtain ⟨-, hlt⟩ := hblock.dests_edge halone hS
    have hterm : th.inst = f.terminatorAddr base s.block bb := by rw [hat, htake, PNFunction.terminatorAddr]
    have hdests : DestsLocal ex f.values.length (f.blockAddr base t) (bb.phiAssigns.map (runtimeAssign host offsets)) := by
      rw [DestsLocal, hblock.movesTo_eq halone hS]
      intro m hmove
      obtain ⟨typeId, incoming, hmem, -⟩ := mem_phiMoves.mp hmove
      obtain ⟨hge, hlt⟩ := hc.results (List.mem_flatMap.mpr ⟨S, List.mem_of_getElem? hS, hmem⟩) rfl
      exact ⟨hge, hlt, by omega⟩
    rw [hexec, hblock.branchTo_eq hlen hterm] at he
    obtain ⟨th₁, hdo, he⟩ := bind_eq_ok.mp he
    cases he
    have hk := (phiAssigns_returns bb.fastPhiAssign h.frame (hm.ok _) (by rwa [List.length_map]) hlt hdests h.mark).1 th₁ hdo
    have hrange : ∀ a ∈ bb.phiAssigns.map (runtimeAssign host offsets), e.HasValue ex a.destValueId := by
      intro a ha
      unfold Entry.HasValue
      rw [hn]
      exact hlt a ha
    have hst := hfr.phiAssigns hm (by rwa [List.length_map]) hrange (fun _ => h.mark) hdo
    exact ⟨hst.inv.fields rfl rfl rfl rfl, hst.same, hk.allocator⟩

/-- An instruction that does not stop without calls and returns is none of them. -/
theorem executeProgramInstruction_body {other : PNRuntimeInstruction → PNThread → Except Stop PNThread} {sh : StepHost}
    {Q : PNThread → Prop} (hf : module.functions[th.functionId]? = some f) (hstream : f.instructions = some (base, stream))
    (h : Avoids (· ≠ outOfMemory) (executeInstruction ex stream (fun _ _ => .error (.undefined "")) sh th) Q) :
    executeProgramInstruction ex module other sh th = executeInstruction ex stream other sh th := by
  have hother : ∀ r, stream.at th.inst = some r → executeInstruction ex stream (fun _ _ => .error (.undefined "")) sh th ≠
      .error (.undefined "") := fun r _ heq => h.2 _ heq (by decide)
  unfold executeProgramInstruction
  rw [hf, Option.bind_some, hstream]
  dsimp only
  split
  next hat => exact absurd (by simp only [executeInstruction, hat]) (hother _ hat)
  next hat => exact absurd (by simp only [executeInstruction, hat]) (hother _ hat)
  next hat => exact absurd (by simp only [executeInstruction, hat]) (hother _ hat)
  next => rfl

/-- **An instruction of the running body.** -/
theorem AtProgram.body {other : PNRuntimeInstruction → PNThread → Except Stop PNThread} {sh : StepHost} {b : BodyState}
    (h : AtProgram host module ex s th e es) (hex : ExecutorOf host module ex)
    (hf : module.functions[s.running.functionId]? = some f) (hm : MallocFresh ex sh.malloc)
    (hs : BodyStep host module f (s.running.body s.memory) b) :
    Avoids (· ≠ outOfMemory) (executeProgramInstruction ex module other sh th)
      (AtProgram host module ex ⟨s.running.withBody b, s.waiting, b.memory⟩ · e es) := by
  obtain ⟨base, stream, hcode, hexec, hid, hat⟩ := h.atBody hex hf
  have hids : ex.numValues + f.values.length ≤ PN_INVALID_VALUE_ID := by
    rw [hex.numValues]
    exact hexec.ids
  have hn : (ex.functions e.functionId).numValues = f.values.length := by
    rw [hid, hex.functions hf]
    rfl
  have hrun : module.functions[th.functionId]? = some f := by
    rw [h.frames.running e rfl, hid]
    exact hf
  rw [executeProgramInstruction_body hrun hcode.instructions (hat.step hcode.compiled hids hexec.edges hm hs)]
  have hstep : Avoids (· ≠ outOfMemory) (executeInstruction ex stream other sh th) (AtBody host module ex f base b) :=
    hat.step hcode.compiled hids hexec.edges hm hs
  refine ⟨fun th' he => ?_, hstep.2⟩
  have hat' := hstep.1 th' he
  have hstay := hat.stays h.frames hn hcode.compiled hids hexec.edges hm hs he
  refine ⟨hstay.inv, hstay.alloc.trans h.alloc, hat'.memory, ⟨f, base, stream, hf, hcode, hexec, hid, ?_, hat'.inst, hat'.types,
    fun id v hv => ?_⟩, waiting_same hex hstay.same h.waiting⟩
  · obtain ⟨_, _, _, _, _, _, hlast⟩ := h.running
    exact hlast.last
  · rw [← hstay.inv.getValue_eq]
    exact hat'.values id v hv

/-- A phi or a forward type reference is passed by. -/
theorem AtProgram.skip (h : AtProgram host module ex s th e es) {i : PNInstruction} (hat : s.running.At module f i)
    (hskip : i.isStored = false) : AtProgram host module ex { s with running := s.running.next } th e es := by
  obtain ⟨f', base, stream, hf', hcode, hexec, hrun⟩ := h.running
  obtain ⟨hf, bb, hbb, hi⟩ := hat
  cases hf.symm.trans hf'
  obtain ⟨bb', hbb', hinst⟩ := hrun.inst
  cases hbb.symm.trans hbb'
  refine ⟨h.frames, h.alloc, h.memory, ⟨f, base, stream, hf', hcode, hexec, hrun.functionId, hrun.last, ⟨bb, hbb, ?_⟩, hrun.types,
    hrun.values⟩, h.waiting⟩
  simp only [Activation.next]
  rw [instsSize_take_succ hi, unstored_size hskip]
  exact hinst

/-! ## CALL -/

/-- What the executor finds at a call. -/
theorem AtFrame.call_at (h : AtFrame host module ex mem inst x a) {res convention calleeId returnTypeId : Nat} {argIds : List Nat}
    {isIndirect isTailCall : Bool}
    (hat : a.At module f (.call res convention calleeId argIds returnTypeId isIndirect isTailCall)) :
    ∃ base stream, CodeOf host module ex f base stream ∧ f.Executable module ∧ AtActivation host module ex f base mem inst x a ∧
      ∃ opcode flags, stream.at inst = some (.call opcode res calleeId argIds.length flags argIds) ∧
        (flags % 2 = 1 ↔ isIndirect = true) ∧ ex.callAt inst = ⟨res, argIds⟩ ∧
        ((isIndirect = true ∨ ∃ functionId typeId g, module.values[calleeId]? = some ⟨.function functionId, typeId⟩ ∧
          module.functions[functionId]? = some g ∧ g.intrinsicId = .null) → opcode = .call) := by
  obtain ⟨f', base, stream, hf', hcode, hexec, hrun⟩ := h
  obtain ⟨hf, bb, hbb, hi⟩ := hat
  cases hf.symm.trans hf'
  obtain ⟨bb', hbb', hinst⟩ := hrun.inst
  cases hbb.symm.trans hbb'
  have hcall := hcode.call hbb hi
  rw [← hinst] at hcall
  exact ⟨base, stream, hcode, hexec, hrun, hcall⟩

/-- A function of the module can be called. -/
theorem callable_of_executable (hex : ExecutorOf host module ex) {functionId : Nat} (hg : module.functions[functionId]? = some g)
    (hexec : g.Executable module) : Callable ex functionId := by
  obtain ⟨base, stream, hstream, hbase⟩ := hexec.code
  have hrun := hex.functions hg
  have hroom := hexec.room
  refine ⟨?_, ?_, ?_, ?_, ?_⟩
  · rw [hex.numFunctions]
    exact (List.getElem?_eq_some_iff.mp hg).1
  · rw [hrun, PNFunction.runtime, hstream]
    exact hbase
  · rw [hrun]
    simpa [PNFunction.runtime] using hroom
  · rw [hrun]
    exact hexec.size
  · rw [hrun, hex.numValues]
    exact hexec.ids

theorem function_pointer_index {functionId : Nat} {p : BitVec 32} {w : Nat} (hw : Holds .int32 w p)
    (hp : pnFunctionPointerToIndex p.toNat = functionId + PN_MAX_BUILTINS) :
    pnFunctionPointerToIndex (w % 2 ^ 32) = functionId + PN_MAX_BUILTINS := by
  rw [show w % 2 ^ 32 = p.toNat from hw]
  exact hp

/-- CALL of a function of the module. -/
theorem executeProgramInstruction_call {other : PNRuntimeInstruction → PNThread → Except Stop PNThread} {sh : StepHost}
    {values : LlvmValues} {res calleeId num flags functionId : Nat} {argIds : List Nat} {isIndirect : Bool}
    (hf : module.functions[th.functionId]? = some f) (hstream : f.instructions = some (base, stream))
    (hat : stream.at th.inst = some (.call .call res calleeId num flags argIds)) (hflags : flags % 2 = 1 ↔ isIndirect = true)
    (hv : ∀ id v, values id = some v → Holds v.type (pnThreadGetValue ex th id) v.bits)
    (hc : Callee module values calleeId isIndirect functionId) :
    executeProgramInstruction ex module other sh th = opcodeCall ex sh.malloc functionId th := by
  unfold executeProgramInstruction
  rw [hf, Option.bind_some, hstream]
  simp only [hat]
  cases hc with
  | direct h =>
    rw [if_neg fun hne => Bool.false_ne_true (hflags.mp hne), h]
    rfl
  | @indirect functionId p h hp =>
    rw [if_pos (hflags.mpr rfl), function_pointer_index (hv _ _ h) hp, if_neg (by omega), Nat.add_sub_cancel]

/-- The values of a function that starts, when its arguments and its constants are set. -/
theorem EntryValues.holds {functionId : Nat} {args : List LlvmValue} {values : LlvmValues} (hr : ReadFor host fuel module ex)
    (hg : module.functions[functionId]? = some g) (hentry : EntryValues host module g args values)
    (hargs : ∀ n v, args[n]? = some v → Holds v.type (frameValue ex mem x (ex.numValues + n)) v.bits)
    (hconstants : ∀ n w, (ex.functions functionId).constants[n]? = some w →
      frameValue ex mem x (ex.numValues + (ex.functions functionId).numArgs + n) = w) :
    ∀ id v, values id = some v → Holds v.type (frameValue ex mem x id) v.bits := by
  have hex := hr.executor
  have hrun := hex.functions hg
  intro id v hv
  obtain ⟨hval, -⟩ := hentry id v hv
  cases hval with
  | @global id p hp =>
    have hlt : id < ex.numValues := by
      rw [hex.numValues]
      by_contra hge
      rw [PNModule.globalValue, List.getElem?_eq_none (Nat.le_of_not_lt hge)] at hp
      cases hp
    rw [frameValue, if_neg (Nat.not_le.mpr hlt)]
    exact (hr.globals hp).trans (BitVec.toNat_ofNat p 32).symm
  | @argument n v hn =>
    rw [← hex.numValues]
    exact hargs n v hn
  | @constant n w c t y hn hw hy =>
    have hget : (ex.functions functionId).constants[n]? = some w := by
      rw [hrun, PNFunction.runtime, List.getElem?_map, List.getElem?_zipIdx, hn]
      simp [hw]
    have hnum : (ex.functions functionId).numArgs = g.numArgs := by rw [hrun]; rfl
    have hconst := hconstants n w hget
    rw [hnum] at hconst
    rw [← hex.numValues, hconst]
    exact hy

/-- The values of a function that has been called. -/
theorem CalledWith.values {functionId : Nat} {args : List LlvmValue} {argIds : List Nat} {values : LlvmValues} {res : Nat}
    (h : CalledWith ex th th' e' e es functionId) (hr : ReadFor host fuel module ex) (hg : module.functions[functionId]? = some g)
    (hat : AtActivation host module ex f base th.mem th.inst e a) (hcall : ex.callAt th.inst = ⟨res, argIds⟩)
    (hargs : argIds.map a.values = args.map some) (hentry : EntryValues host module g args values) :
    ∀ id v, values id = some v → Holds v.type (frameValue ex th'.mem e' id) v.bits := by
  refine hentry.holds hr hg (fun n v hn => ?_) h.constant
  have hsome := congrArg (fun l => l[n]?) hargs
  simp only [List.getElem?_map, hn, Option.map_some] at hsome
  obtain ⟨id, hid, hval⟩ := Option.map_eq_some_iff.mp hsome
  rw [h.argument n id (by rw [hcall]; exact hid)]
  exact hat.values id v hval

/-- **A CALL** of a function of the module. -/
theorem AtProgram.call {other : PNRuntimeInstruction → PNThread → Except Stop PNThread} {sh : StepHost}
    {res convention calleeId returnTypeId functionId : Nat} {argIds : List Nat} {isIndirect isTailCall : Bool}
    {args : List LlvmValue} {values : LlvmValues} (h : AtProgram host module ex s th e es) (hr : ReadFor host fuel module ex)
    (hcode : ∀ {functionId : Nat} {f : PNFunction}, module.functions[functionId]? = some f → f.bbs ≠ [] →
      ∃ base stream, CodeOf host module ex f base stream)
    (hm : MallocFresh ex sh.malloc)
    (hat : s.running.At module f (.call res convention calleeId argIds returnTypeId isIndirect isTailCall))
    (hres : res = PN_INVALID_VALUE_ID ∨ module.values.length ≤ res ∧ ∃ t, basicTypeOf host module f res = .ok t)
    (hcallee : Callee module s.running.values calleeId isIndirect functionId) (hg : module.functions[functionId]? = some g)
    (hnull : g.intrinsicId = .null) (hbody : g.bbs ≠ []) (hargs : argIds.map s.running.values = args.map some)
    (hnum : args.length = g.numArgs) (hentry : EntryValues host module g args values) :
    Avoids (· ≠ outOfMemory) (executeProgramInstruction ex module other sh th) fun th' => ∃ e',
      AtProgram host module ex ⟨⟨functionId, 0, 0, values⟩, s.running :: s.waiting, s.memory⟩ th' e' (e :: es) := by
  have hex := hr.executor
  obtain ⟨base, stream, hcodef, hexecf, hrun, opcode, flags, hstream, hflags, hcallat, hop⟩ := h.running.call_at hat
  have hf := hat.1
  have hthf : module.functions[th.functionId]? = some f := by
    rw [h.frames.running e rfl, hrun.functionId]
    exact hf
  have hcall : opcode = .call := by
    refine hop ?_
    cases hcallee with
    | direct hd => exact .inr ⟨_, _, g, hd, hg, hnull⟩
    | indirect => exact .inl rfl
  subst hcall
  have hv : ∀ id v, s.running.values id = some v → Holds v.type (pnThreadGetValue ex th id) v.bits := by
    rw [h.frames.getValue_eq]
    exact hrun.values
  rw [executeProgramInstruction_call hthf hcodef.instructions hstream hflags hv hcallee]
  obtain ⟨base', stream', hcodeg⟩ := hcode hg hbody
  have hexecg := (hr.bodies hg hbody).2
  have hrung := hex.functions hg
  have hrange : ResultInRange ex e.functionId (ex.callAt th.inst) := by
    rw [hcallat]
    rcases hres with rfl | ⟨hge, t, ht⟩
    · exact .inl rfl
    · refine .inr ⟨hex.numValues ▸ hge, ?_⟩
      rw [hrun.functionId, hex.functions hf, hex.numValues]
      exact basicTypeOf_lt ht
  have hlen : argIds.length = args.length := by simpa using congrArg List.length hargs
  have hreturns := h.frames.call_returns hm (callable_of_executable hex hg hexecg) hrange
    (by rw [hcallat, hrung]; exact (hlen.trans hnum).le)
    (by
      rw [hcallat]
      intro id hid
      have hmem : s.running.values id ∈ args.map some := hargs ▸ List.mem_map_of_mem hid
      obtain ⟨v, -, hval⟩ := List.mem_map.mp hmem
      exact hrun.hasValue hex hf hval.symm)
  refine hreturns.mono fun th' hth' => ?_
  obtain ⟨e', hc⟩ := hth'
  have hsame : SameOn th.mem th'.mem (baseBlocks ex es) := fun b hb => hc.called.same b (List.mem_cons_of_mem _ hb)
  refine ⟨e', hc.called.inv, hc.alloc.symm, hc.memory.trans h.memory, ⟨g, base', stream', hg, hcodeg, hexecg, hc.function, ?_,
    ?_, fun id v hv => (hentry id v hv).2, hc.values hr hg hrun hcallat hargs hentry⟩, .cons ?_ (waiting_same hex hsame h.waiting)⟩
  · rw [hc.alloc, hc.last]
  · obtain ⟨bb, bbs, hbbs⟩ := List.exists_cons_of_ne_nil hbody
    refine ⟨bb, by rw [hbbs]; rfl, ?_⟩
    rw [hc.inst, hrung, PNFunction.runtime, hcodeg.instructions]
    rfl
  · rw [hc.called.caller]
    exact h.running.same hex hc.called.same (List.mem_cons_self ..)

/-! ## Returns -/

/-- A return releases all that has been allocated since the call. -/
theorem returns_release (h : FramesInv ex th (e :: e' :: es)) (hm : MarkFound th.allocator (pnAllocatorMark e'.alloc))
    {op : PNThreadOp} (hop : op.Returns) (he : op.exec ex th = .ok th') : th'.allocator = e'.alloc ∧ th'.memory = th.memory := by
  have hp := h.pop [e]
  obtain ⟨hi, hx, -⟩ := hp.levels
  have hreset := reset_restores h.inv hi hx hm
  have hmark : (readFrame th.mem e'.addr).mark = pnAllocatorMark e'.alloc := hp.head.mark
  have hparent : (readFrame th.mem th.currentFrame).parent = e'.addr := h.parent_eq
  have hid : (readFrame th.mem e'.addr).location.functionId ≠ PN_INVALID_FUNCTION_ID := by
    rw [show (readFrame th.mem e'.addr).location.functionId = e'.functionId from hp.head.functionId]
    exact hp.links.2.1
  cases op with
  | ret =>
    obtain ⟨f, hf, he⟩ := bind_eq_ok.mp he
    obtain rfl := frame_ok hf
    obtain ⟨frame, hframe, he⟩ := bind_eq_ok.mp he
    obtain rfl := frame_ok hframe
    simp only [hparent] at he
    rw [if_pos hid, hmark] at he
    cases he
    exact ⟨hreset, rfl⟩
  | retValue v =>
    obtain ⟨f, hf, he⟩ := bind_eq_ok.mp he
    obtain rfl := frame_ok hf
    obtain ⟨frame, hframe, he⟩ := bind_eq_ok.mp he
    obtain rfl := frame_ok hframe
    simp only [hparent] at he
    rw [if_pos hid] at he
    obtain ⟨th₁, hset, he⟩ := bind_eq_ok.mp he
    obtain ⟨-, -, -, rfl⟩ := setValue_ok hset
    rw [hmark] at he
    cases he
    exact ⟨hreset, rfl⟩
  | call | setjmp | longjmp | phiAssigns | other | elsewhere => cases hop

/-- The instruction of a return. -/
theorem AtFrame.ret_at (h : AtFrame host module ex mem inst x a) {id : Nat} (hat : a.At module f (.ret id)) :
    x.functionId = a.functionId ∧ ∃ base stream, f.instructions = some (base, stream) ∧
      stream.at inst = some (if id ≠ PN_INVALID_VALUE_ID then .retValue id else .ret) := by
  obtain ⟨f', base, stream, hf', hcode, -, hrun⟩ := h
  obtain ⟨hf, bb, hbb, hi⟩ := hat
  cases hf.symm.trans hf'
  obtain ⟨bb', hbb', hinst⟩ := hrun.inst
  cases hbb.symm.trans hbb'
  obtain ⟨offsets, module', f', stored, hl⟩ := hcode.compiled.lowered hbb hi
  have hlow := hl.lowered
  cases hlow
  rw [hinst]
  exact ⟨hrun.functionId, base, stream, hcode.instructions, hl.stream _ rfl⟩

/-- A return goes back to the frame below, whose marks are found. -/
theorem AtProgram.return_returns {a b : Activation} {waiting : List Activation} {memory : PNMemory} (op : PNThreadOp)
    (h : AtProgram host module ex ⟨a, b :: waiting, memory⟩ th e (e' :: es)) (hex : ExecutorOf host module ex) (hop : op.Returns)
    (hres : ∀ v, op = .retValue v →
      (ex.callAt (readFrame th.mem e'.addr).location.inst).resultValueId ≠ PN_INVALID_VALUE_ID) :
    ∃ th', op.exec ex th = .ok th' ∧ ReturnedTo ex op th th' e' es ∧ th'.allocator = e'.alloc ∧ th'.memory = th.memory := by
  obtain ⟨hb, -⟩ := List.forall₂_cons.mp h.waiting
  have hmark := hb.markFound hex h.frames.inv
    (h.frames.levels.allocated _ (valuesBlock_mem (List.mem_cons_of_mem _ (List.mem_cons_self ..))))
  have hfound : ReturnFound ex th := by
    intro _
    rw [h.frames.parent_eq, show (readFrame th.mem (top ex (e' :: es))).mark = pnAllocatorMark e'.alloc from
      (h.frames.pop [e]).head.mark]
    exact hmark
  obtain ⟨th', he⟩ := h.frames.return_ok hop hres
  obtain ⟨halloc, hmemory⟩ := returns_release h.frames hmark hop he
  refine ⟨th', he, ?_, halloc, hmemory⟩
  cases op with
  | ret =>
    rcases h.frames.ret hfound he with ⟨hnil, -⟩ | ⟨e₁, es₁, heq, hret⟩
    · cases hnil
    · obtain ⟨rfl, rfl⟩ := List.cons.inj heq
      exact hret
  | retValue v =>
    rcases h.frames.retValue hfound he with ⟨hnil, -⟩ | ⟨e₁, es₁, heq, hret⟩
    · cases hnil
    · obtain ⟨rfl, rfl⟩ := List.cons.inj heq
      exact hret
  | call | setjmp | longjmp | phiAssigns | other | elsewhere => cases hop

/-- The call below goes on with its values. -/
theorem AtProgram.resumed {a b : Activation} {waiting : List Activation} {memory : PNMemory} {op : PNThreadOp}
    {values : LlvmValues} {res convention calleeId returnTypeId : Nat} {argIds : List Nat} {isIndirect isTailCall : Bool}
    (h : AtProgram host module ex ⟨a, b :: waiting, memory⟩ th e (e' :: es)) (hex : ExecutorOf host module ex)
    (hcaller : b.At module g (.call res convention calleeId argIds returnTypeId isIndirect isTailCall))
    (hret : ReturnedTo ex op th th' e' es) (halloc : th'.allocator = e'.alloc) (hmemory : th'.memory = th.memory)
    (hvalues : ∀ id v, values id = some v → basicTypeOf host module g id = .ok v.type ∧
      Holds v.type (frameValue ex th'.mem e' id) v.bits) :
    AtProgram host module ex ⟨⟨b.functionId, b.block, b.index + 1, values⟩, waiting, memory⟩ th' e' es := by
  obtain ⟨hb, hwaiting⟩ := List.forall₂_cons.mp h.waiting
  obtain ⟨base, stream, hcode, hexec, hat, opcode, flags, -, -, hcall, -⟩ := hb.call_at hcaller
  obtain ⟨hg, bb, hbb, hi⟩ := hcaller
  obtain ⟨bb', hbb', hinst⟩ := hat.inst
  cases hbb.symm.trans hbb'
  have hsame : SameOn th.mem th'.mem (baseBlocks ex es) := fun b hb => hret.same b (List.mem_cons_of_mem _ hb)
  refine ⟨hret.inv, halloc, hmemory.trans h.memory, ⟨g, base, stream, hg, hcode, hexec, hat.functionId, hat.last, ⟨bb, hbb, ?_⟩,
    fun id v hv => (hvalues id v hv).1, fun id v hv => (hvalues id v hv).2⟩, waiting_same hex hsame hwaiting⟩
  rw [hret.inst, hcall, instsSize_take_succ hi, ← Nat.add_assoc, ← hinst]
  rfl

/-- **RET** goes on behind the call. -/
theorem AtProgram.ret (other : PNRuntimeInstruction → PNThread → Except Stop PNThread) (sh : StepHost) {a b : Activation}
    {waiting : List Activation} {memory : PNMemory} {convention calleeId returnTypeId : Nat} {argIds : List Nat}
    {isIndirect isTailCall : Bool} (h : AtProgram host module ex ⟨a, b :: waiting, memory⟩ th e es)
    (hex : ExecutorOf host module ex) (hat : a.At module f (.ret PN_INVALID_VALUE_ID))
    (hcaller : b.At module g (.call PN_INVALID_VALUE_ID convention calleeId argIds returnTypeId isIndirect isTailCall)) :
    ∃ th' e' es', executeProgramInstruction ex module other sh th = .ok th' ∧
      AtProgram host module ex ⟨b.next, waiting, memory⟩ th' e' es' := by
  cases es with
  | nil => cases h.waiting
  | cons e' es =>
    obtain ⟨hid, base, stream, hstream, hinst⟩ := h.running.ret_at hat
    have hthf : module.functions[th.functionId]? = some f := by
      rw [h.frames.running e rfl, hid]
      exact hat.1
    obtain ⟨th', he, hret, halloc, hmemory⟩ := h.return_returns .ret hex trivial fun _ hv => by cases hv
    refine ⟨th', e', es, ?_, h.resumed hex hcaller hret halloc hmemory fun id v hv => ?_⟩
    · unfold executeProgramInstruction
      rw [hthf, Option.bind_some, hstream]
      simp only [hinst]
      exact he
    · obtain ⟨hb, -⟩ := List.forall₂_cons.mp h.waiting
      obtain ⟨base, stream, -, -, hatb, -⟩ := hb.call_at hcaller
      rw [show th'.mem = th.mem from hret.mem]
      exact ⟨hatb.types id v hv, hatb.values id v hv⟩

/-- **RET_VALUE** also gives the call its result. -/
theorem AtProgram.retValue (other : PNRuntimeInstruction → PNThread → Except Stop PNThread) (sh : StepHost) {a b : Activation}
    {waiting : List Activation} {memory : PNMemory} {id res convention calleeId returnTypeId : Nat} {argIds : List Nat}
    {isIndirect isTailCall : Bool} {v : LlvmValue} (h : AtProgram host module ex ⟨a, b :: waiting, memory⟩ th e es)
    (hex : ExecutorOf host module ex) (hne : id ≠ PN_INVALID_VALUE_ID) (hat : a.At module f (.ret id))
    (hv : a.values id = some v) (hcaller : b.At module g (.call res convention calleeId argIds returnTypeId isIndirect isTailCall))
    (hres : res ≠ PN_INVALID_VALUE_ID) (hty : basicTypeOf host module g res = .ok v.type) :
    ∃ th' e' es', executeProgramInstruction ex module other sh th = .ok th' ∧
      AtProgram host module ex ⟨b.returned res v, waiting, memory⟩ th' e' es' := by
  cases es with
  | nil => cases h.waiting
  | cons e' es =>
    obtain ⟨hid, base, stream, hstream, hinst⟩ := h.running.ret_at hat
    rw [if_pos hne] at hinst
    have hthf : module.functions[th.functionId]? = some f := by
      rw [h.frames.running e rfl, hid]
      exact hat.1
    obtain ⟨hb, -⟩ := List.forall₂_cons.mp h.waiting
    obtain ⟨base', stream', -, -, hatb, opcode, flags, -, -, hcall, -⟩ := hb.call_at hcaller
    obtain ⟨th', he, hret, halloc, hmemory⟩ := h.return_returns (.retValue id) hex trivial fun _ _ => by
      rw [hcall]
      exact hres
    have hvalue : Holds v.type (pnThreadGetValue ex th id) v.bits := by
      obtain ⟨f', _, _, hf', -, -, hrun⟩ := h.running
      rw [h.frames.getValue_eq]
      exact hrun.values id v hv
    have hge : ex.numValues ≤ res := by
      have hres := (hret.result id rfl).1
      rwa [hcall] at hres
    refine ⟨th', e', es, ?_, h.resumed hex hcaller hret halloc hmemory fun i u hu => ?_⟩
    · unfold executeProgramInstruction
      rw [hthf, Option.bind_some, hstream]
      simp only [hinst]
      exact he
    · have hmem := hret.mem
      simp only [PNThreadOp.returned, hcall] at hmem
      rw [frameValue, hmem]
      by_cases hi : i = res
      · subst hi
        rw [Function.update_self] at hu
        cases hu
        rw [if_pos hge, Function.update_self]
        exact ⟨hty, hvalue⟩
      · rw [Function.update_of_ne hi] at hu
        have hkeep := hatb.values i u hu
        rw [frameValue] at hkeep
        refine ⟨hatb.types i u hu, ?_⟩
        split
        next hle =>
          rw [if_pos hle] at hkeep
          rw [Function.update_of_ne (by omega)]
          exact hkeep
        next hlt =>
          rw [if_neg hlt] at hkeep
          exact hkeep

end

end Pnacl
