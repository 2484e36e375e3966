import Pnacl.BodyOps
import Pnacl.Switch
import Pnacl.TruthValues

/-!
# The stream runs as the body means

An instruction of a body is lowered to an opcode for the types of its operands, which are declared for their ids, and it is written
to the address that the sizes of the instructions before it give (`Compiled.lowered`). So each instruction of a run of the body is
one step of the executor, which gives the new value the bits that the body means (`AtBody.value`, `AtBody.store`, `AtBody.branch`),
and the executor follows the whole run (`executeInstructions_follows`).
-/

namespace Pnacl

open Lib

/-! ## What the reader leaves -/

/-- Every edge assigns its phis at once, and no table is longer than its count. -/
def PNFunction.EdgesKept (f : PNFunction) : Prop :=
  ∀ p bb, f.bbs[p]? = some bb → bb.phiAssigns.length < 2 ^ 16 ∧
    ∀ s S, f.bbs[s]? = some S → f.Alone p s ∧ (¬Untouched (firstMoves f.bbs p) ∨ Independent (S.phiMoves p))

/-- What the passes have made of an instruction, with the types of the module and the values of the function. -/
structure LoweredAt (host : PNHost) (module : PNModule) (f : PNFunction) (base : Nat) (stream : PNIstream) (addr : Nat)
    (inst : PNInstruction) (offsets : List Nat) (module' : PNModule) (f' : PNFunction) (stored : Option PNRuntimeInstruction) :
    Prop where
  blocks : ∀ n, n < f.bbs.length → offsets[n]? = some (f.blockAddr base n)
  basicType : ∀ id, basicTypeOf host module' f' id = basicTypeOf host module f id
  type : ∀ typeId, module'.type host typeId = module.type host typeId
  lowered : lowerInstruction host module' f' offsets inst = .ok stored
  stream : ∀ r ∈ stored, stream.at addr = some r

/-- The stream of a function that was read behind the tables of its module. -/
structure Compiled (host : PNHost) (module : PNModule) (ex : PNExecutor) (f : PNFunction) (base : Nat) (stream : PNIstream) :
    Prop where
  numValues : ex.numValues = module.values.length
  lowered : ∀ {n k : Nat} {bb : PNBasicBlock} {inst : PNInstruction}, f.bbs[n]? = some bb → bb.instructions[k]? = some inst →
    ∃ offsets module' f' stored, LoweredAt host module f base stream
      (f.blockAddr base n + instsSize (bb.instructions.take k)) inst offsets module' f' stored
  branch : ∀ {p : Nat} {bb : PNBasicBlock} {last : PNInstruction}, f.bbs[p]? = some bb → bb.instructions.getLast? = some last →
    last.isBranch = true → ∃ offsets, BranchBlock host ex.numValues f base stream p bb offsets
  results : ∀ {inst : PNInstruction} {id : Nat}, inst ∈ f.insts → inst.resultId = some id →
    ex.numValues ≤ id ∧ id < ex.numValues + f.values.length

section Read

variable {host : PNHost} {module module' : PNModule} {f f' : PNFunction} {base functionId fuel : Nat} {stream : PNIstream}
  {offsets : List Nat} {ex : PNExecutor} {memory : PNMemory} {bs bs' : PNBitStream} {rs : PNReadState}

theorem instsSize_take_succ {insts : List PNInstruction} {k : Nat} {inst : PNInstruction} (h : insts[k]? = some inst) :
    instsSize (insts.take (k + 1)) = instsSize (insts.take k) + inst.streamSize := by
  rw [List.take_add_one, h]
  simp [instsSize]

/-- Every instruction of a block is written behind those before it. -/
theorem writeInstructions_get : ∀ {insts : List PNInstruction} {k offset next : Nat} {s : PNIstream} {inst : PNInstruction},
    writeInstructions host module f offsets true insts offset = .ok (next, s) → insts[k]? = some inst →
    ∃ stored, lowerInstruction host module f offsets inst = .ok stored ∧
      ∀ r ∈ stored, (offset + instsSize (insts.take k), r) ∈ s
  | [], _, _, _, _, _, _, hk => by cases hk
  | first :: rest, k, offset, next, s, inst, h, hk => by
    obtain ⟨stored, hst, h⟩ := bind_eq_ok.mp h
    obtain ⟨⟨next', s'⟩, hrest, h⟩ := bind_eq_ok.mp h
    cases h
    cases k with
    | zero =>
      cases hk
      refine ⟨stored, hst, fun r hr => ?_⟩
      cases hr
      simp [instsSize]
    | succ k =>
      obtain ⟨stored', hst', hmem⟩ := writeInstructions_get hrest hk
      refine ⟨stored', hst', fun r hr => List.mem_append_right _ ?_⟩
      have hsize : instsSize ((first :: rest).take (k + 1)) = first.streamSize + instsSize (rest.take k) := rfl
      rw [hsize, ← Nat.add_assoc]
      exact hmem r hr

theorem basicTypeOf_congr (ht : module'.types = module.types) (hv : module'.values = module.values) (hf : f'.values = f.values)
    (id : Nat) : basicTypeOf host module' f' id = basicTypeOf host module f id := by
  simp only [basicTypeOf, pnFunctionGetValue, PNModule.type, pnFunctionNumValues, ht, hv, hf]

/-- What the passes have written for an instruction. -/
theorem passes_lowered {f₀ g : PNFunction} (ht : module'.types = module.types) (hv : module'.values = module.values)
    (hp : pnFunctionPasses host module' functionId f₀ = .ok g) (hsame : SameBody g f) (hstream : f.instructions = some (base, stream))
    {n k : Nat} {bb : PNBasicBlock} {inst : PNInstruction} (hn : f.bbs[n]? = some bb) (hk : bb.instructions[k]? = some inst) :
    ∃ offsets f' stored, LoweredAt host module f base stream
      (f.blockAddr base n + instsSize (bb.instructions.take k)) inst offsets module' f' stored := by
  obtain ⟨f₁, f₂, -, -, h₃, hg⟩ := pnFunctionPasses_cases hp
  obtain ⟨stream', offsets, heq, hoffsets, hblocks⟩ := calculateOpcodes_block (host.instructions_le functionId) h₃
  have hcode : g.instructions = some (host.instructions functionId, stream') := by rw [heq]
  rw [← hsame.instructions, hstream] at hcode
  cases hcode
  have hbbs : f.bbs = f₂.bbs := by rw [hsame.bbs, hg]
  have hvalues : f₂.values = f.values := by rw [hsame.values, hg]
  have haddr : ∀ n, f₂.blockAddr (host.instructions functionId) n = f.blockAddr (host.instructions functionId) n := by
    intro n
    rw [PNFunction.blockAddr, PNFunction.blockAddr, hbbs]
  obtain ⟨next, s, hw, hat⟩ := hblocks (hbbs ▸ hn)
  obtain ⟨⟨mid, s'⟩, hi, hw⟩ := bind_eq_ok.mp hw
  obtain ⟨stored, hst, hmem⟩ := writeInstructions_get hi hk
  refine ⟨offsets, f₂, stored, ?_, basicTypeOf_congr ht hv hvalues, PNModule.type_congr ht, hst, fun r hr => ?_⟩
  · intro n hn
    rw [← haddr]
    exact hoffsets n (hbbs ▸ hn)
  · have hmem' : (f₂.blockAddr (host.instructions functionId) n + instsSize (bb.instructions.take k), r) ∈ s := by
      dsimp only at hw
      split at hw
      · cases hw
        exact List.mem_append_left _ (hmem r hr)
      · cases hw
        exact hmem r hr
    rw [← haddr]
    exact hat _ hmem'

/-- The stream of a body that was read behind the tables of the module. -/
theorem BodyRead.lowered (h : BodyRead host module functionId f) (hstream : f.instructions = some (base, stream)) {n k : Nat}
    {bb : PNBasicBlock} {inst : PNInstruction} (hn : f.bbs[n]? = some bb) (hk : bb.instructions[k]? = some inst) :
    ∃ offsets module' f' stored, LoweredAt host module f base stream
      (f.blockAddr base n + instsSize (bb.instructions.take k)) inst offsets module' f' stored := by
  obtain ⟨module', f₀, g, ht, hv, -, hp, hsame⟩ := h
  obtain ⟨offsets, f', stored, hl⟩ := passes_lowered ht hv hp hsame hstream hn hk
  exact ⟨offsets, module', f', stored, hl⟩

theorem BodyRead.results (h : BodyRead host module functionId f) {inst : PNInstruction} {id : Nat} (hmem : inst ∈ f.insts)
    (hid : inst.resultId = some id) : module.values.length ≤ id ∧ id < module.values.length + f.values.length := by
  obtain ⟨module', f₀, g, -, -, hok, hp, hsame⟩ := h
  have hframe := pnFunctionPasses_frame hp
  rw [hsame.insts, hframe.insts] at hmem
  obtain ⟨i, v, rfl, hget, -⟩ := hok.defines inst hmem id hid
  have hlt := (List.getElem?_eq_some_iff.mp hget).1
  rw [hsame.values, hframe.values]
  exact ⟨Nat.le_add_right .., Nat.add_lt_add_left hlt _⟩

end Read

/-! ## One instruction -/

/-- The executor is where the run of the body is, and its frame holds the values. -/
structure AtBody (host : PNHost) (module : PNModule) (ex : PNExecutor) (f : PNFunction) (base : Nat) (s : BodyState)
    (th : PNThread) : Prop where
  frame : FrameState th f.values.length
  mark : MarkFound th.allocator (pnAllocatorMark th.allocator)
  inst : ∃ bb, f.bbs[s.block]? = some bb ∧ th.inst = f.blockAddr base s.block + instsSize (bb.instructions.take s.index)
  memory : th.memory = s.memory
  types : ∀ id v, s.values id = some v → basicTypeOf host module f id = .ok v.type
  values : ∀ id v, s.values id = some v → Holds v.type (pnThreadGetValue ex th id) v.bits

section Step

variable {host : PNHost} {module module' : PNModule} {f f' : PNFunction} {base addr : Nat} {stream : PNIstream}
  {offsets : List Nat} {ex : PNExecutor} {s s' : BodyState} {th th' : PNThread} {inst : PNInstruction}
  {stored : Option PNRuntimeInstruction} {other : PNRuntimeInstruction → PNThread → Except Stop PNThread} {sh : StepHost}
  {bb S : PNBasicBlock} {id : Nat} {v : LlvmValue}

theorem basicTypeOf_lt {t : PNBasicType} (h : basicTypeOf host module f id = .ok t) :
    id < module.values.length + f.values.length := by
  by_contra hge
  rw [basicTypeOf, pnFunctionGetValue, List.getElem?_eq_none] at h
  · cases h
  · rw [List.length_append]
    omega

/-- The types that lowering has found. -/
theorem LoweredAt.type_eq {t t' : PNBasicType} (hl : LoweredAt host module f base stream addr inst offsets module' f' stored)
    (h : basicTypeOf host module f id = .ok t) (h' : basicTypeOf host module' f' id = .ok t') : t' = t := by
  rw [hl.basicType, h] at h'
  exact (Except.ok.inj h').symm

theorem opcodeInteger_eq {float : PNOpcode → List Nat → Nat} {ret w : Nat} {r : PNRuntimeInstruction}
    (h : instructionResult float ret (pnThreadGetValue ex th) r = .ok w) : opcodeInteger ex float ret r th =
      pnThreadSetValue ex th r.resultValueId w >>= fun th => .ok { th with inst := th.inst + r.sizeof } := by
  rw [opcodeInteger, h]
  rfl

/-- The types of LOAD and STORE are whole bytes. -/
theorem memoryType_eq {t : PNBasicType} (h : t ∈ [PNBasicType.double, .float, .int8, .int16, .int32, .int64]) :
    8 * t.bytes = t.width ∧ t.memberWidth = t.width := by
  cases t <;> first | exact ⟨rfl, rfl⟩ | exact absurd h (by decide)

/-- In bounds, the check returns. -/
theorem memoryCheck_inBounds {m : PNMemory} {p n : Nat} (h : m.InBounds (p, n)) : pnMemoryCheck m p n = .ok () :=
  pnMemoryCheck_eq_ok.mpr ⟨h.1, (Nat.mod_le _ _).trans h.2⟩

/-- **The value that an instruction computes** is what the executor sets, whatever the bytes behind it are. -/
theorem Evaluates.executes (other : PNRuntimeInstruction → PNThread → Except Stop PNThread) (sh : StepHost)
    (hl : LoweredAt host module f base stream addr inst offsets module' f' stored)
    (ht : ∀ id v, s.values id = some v → basicTypeOf host module f id = .ok v.type)
    (hv : ∀ id v, s.values id = some v → Holds v.type (pnThreadGetValue ex th id) v.bits) (hmem : th.memory = s.memory)
    (hinst : th.inst = addr) (he : Evaluates host module s.values s.memory inst id v) :
    ∃ w, Holds v.type w v.bits ∧ executeInstruction ex stream other sh th =
      pnThreadSetValue ex th id w >>= fun th => .ok { th with inst := th.inst + inst.streamSize } := by
  have h := hl.lowered
  have hat := hl.stream
  rw [← hinst] at hat
  cases he with
  | @binop res id₀ id₁ code flags op t a b c hop hi ha hb hc hfits =>
    obtain ⟨t0, ht0, h⟩ := bind_eq_ok.mp h
    obtain rfl : t0 = t := hl.type_eq (ht id₀ _ ha) ht0
    obtain ⟨t1, -, h⟩ := bind_eq_ok.mp h
    split at h
    · cases h
    · obtain ⟨opcode, ho, h⟩ := bind_eq_ok.mp h
      cases h
      simp only [binopOpcode, hop] at ho
      obtain ⟨o, ho', heq⟩ := bind_eq_ok.mp ho
      cases heq
      obtain ⟨hmem, rfl⟩ := ifType_eq_ok ho'
      obtain ⟨w, hw, hw'⟩ := (binop_result hmem hi (hv id₀ _ ha) (hv id₁ _ hb) hc).mpr hfits
      refine ⟨w, hw', ?_⟩
      simp only [executeInstruction, hat _ rfl]
      exact opcodeInteger_eq hw
  | @cast res id code typeId op t a c hop ha hc =>
    obtain ⟨t0, ht0, h⟩ := bind_eq_ok.mp h
    obtain rfl : t0 = t := hl.type_eq (ht id _ ha) ht0
    rw [hl.type] at h
    obtain ⟨opcode, ho, h⟩ := bind_eq_ok.mp h
    cases h
    simp only [castOpcode, hop] at ho
    split at ho
    next hmem =>
      cases ho
      obtain ⟨w, hw, hw'⟩ := cast_result hmem (hv id _ ha) hc
      refine ⟨w, hw', ?_⟩
      simp only [executeInstruction, hat _ rfl]
      exact opcodeInteger_eq hw
    · cases ho
  | @cmp2 res id₀ id₁ code op t a b c hop hi ha hb hc =>
    obtain ⟨t0, ht0, h⟩ := bind_eq_ok.mp h
    obtain rfl : t0 = t := hl.type_eq (ht id₀ _ ha) ht0
    obtain ⟨t1, -, h⟩ := bind_eq_ok.mp h
    split at h
    · cases h
    · obtain ⟨opcode, ho, h⟩ := bind_eq_ok.mp h
      cases h
      simp only [cmp2Opcode, hop] at ho
      obtain ⟨o, ho', heq⟩ := bind_eq_ok.mp ho
      cases heq
      obtain ⟨hmem, rfl⟩ := ifType_eq_ok ho'
      obtain ⟨w, hw, hw'⟩ := cmp2_result hmem hi (hv id₀ _ ha) (hv id₁ _ hb) hc
      refine ⟨w, hw', ?_⟩
      simp only [executeInstruction, hat _ rfl]
      exact opcodeInteger_eq hw
  | @vselect res cond id₀ id₁ x t a b hx ha hb =>
    obtain ⟨t0, -, h⟩ := bind_eq_ok.mp h
    obtain ⟨t1, -, h⟩ := bind_eq_ok.mp h
    obtain ⟨t2, -, h⟩ := bind_eq_ok.mp h
    split at h
    · cases h
    · split at h
      · cases h
      · cases h
        obtain ⟨w, hw, hw'⟩ := vselect_result (t := t) (x := x) (a := a) (b := b) (hv cond _ hx) (hv id₀ _ ha) (hv id₁ _ hb)
        refine ⟨w, hw', ?_⟩
        simp only [executeInstruction, hat _ rfl]
        exact opcodeInteger_eq hw
  | @load res src alignment typeId p hp hin =>
    obtain ⟨srcType, -, h⟩ := bind_eq_ok.mp h
    split at h
    · cases h
    · obtain ⟨opcode, ho, h⟩ := bind_eq_ok.mp h
      cases h
      rw [hl.type] at ho
      obtain ⟨hmemtype, rfl⟩ := ifType_eq_ok ho
      obtain ⟨hbytes, hwidth⟩ := memoryType_eq hmemtype
      have haddr : pnThreadGetValue ex th src % 2 ^ 32 = p.toNat := hv src _ hp
      generalize (module.type host typeId).basicType = t at hin hbytes hwidth hat
      have hread : pnMemoryRead th.memory t.bytes (pnThreadGetValue ex th src % 2 ^ 32) =
          .ok (loadBytes s.memory.data p.toNat t.bytes) := by
        rw [haddr, hmem, pnMemoryRead, memoryCheck_inBounds hin]
        rfl
      have hlt := loadBytes_lt s.memory.data p.toNat t.bytes
      refine ⟨2 ^ (8 * t.bytes) * (sh.ret / 2 ^ (8 * t.bytes)) + loadBytes s.memory.data p.toNat t.bytes, ?_, ?_⟩
      · unfold Holds
        rw [hwidth, BitVec.toNat_ofNat, ← hbytes, Nat.mul_add_mod]
      · simp only [executeInstruction, hat _ rfl, opcodeLoad, hread, ok_bind]
        rfl

theorem AtBody.block_eq (h : AtBody host module ex f base s th) (hbb : f.bbs[s.block]? = some bb) :
    th.inst = f.blockAddr base s.block + instsSize (bb.instructions.take s.index) := by
  obtain ⟨bb', hbb', hinst⟩ := h.inst
  cases hbb.symm.trans hbb'
  exact hinst

/-- **An instruction that computes a value.** -/
theorem AtBody.value (other : PNRuntimeInstruction → PNThread → Except Stop PNThread) (sh : StepHost)
    (h : AtBody host module ex f base s th) (hc : Compiled host module ex f base stream)
    (hids : ex.numValues + f.values.length ≤ PN_INVALID_VALUE_ID) (hbb : f.bbs[s.block]? = some bb)
    (hinst : bb.instructions[s.index]? = some inst) (he : Evaluates host module s.values s.memory inst id v)
    (hty : basicTypeOf host module f id = .ok v.type) :
    ∃ th', executeInstruction ex stream other sh th = .ok th' ∧ AtBody host module ex f base
      { s with index := s.index + 1, values := Function.update s.values id (some v) } th' := by
  obtain ⟨offsets, module', f', stored, hl⟩ := hc.lowered hbb hinst
  have hat := h.block_eq hbb
  obtain ⟨w, hw, hexec⟩ := he.executes other sh hl h.types h.values h.memory hat
  have hmem : inst ∈ f.insts := List.mem_flatMap.mpr ⟨bb, List.mem_of_getElem? hbb, List.mem_of_getElem? hinst⟩
  have hres : inst.resultId = some id := by cases he <;> rfl
  obtain ⟨hge, hlt⟩ := hc.results hmem hres
  have hset := h.frame.setValue_returns hge hlt (by omega) w
  obtain ⟨hframe, henv, -⟩ := h.frame.setValue hlt hset
  have hk := h.frame.setValue_keeps hlt hset
  rw [hset, ok_bind] at hexec
  generalize th.store _ w = th₁ at hexec hframe henv hk
  have hget : ∀ i : Nat, pnThreadGetValue ex { th₁ with inst := i } = Function.update (pnThreadGetValue ex th) id w := fun _ => henv
  refine ⟨_, hexec, ⟨hframe.inv, hframe.frame, hframe.values, hframe.disjoint⟩, ?_, ⟨bb, hbb, ?_⟩, hk.memory.trans h.memory, ?_, ?_⟩
  · rw [show ({ th₁ with inst := th₁.inst + inst.streamSize } : PNThread).allocator = th.allocator from hk.allocator]
    exact h.mark
  · rw [instsSize_take_succ hinst, ← Nat.add_assoc, ← hat, ← hk.inst]
  · intro i u (hu : Function.update s.values id (some v) i = some u)
    by_cases hi : i = id
    · subst hi
      rw [Function.update_self] at hu
      cases hu
      exact hty
    · rw [Function.update_of_ne hi] at hu
      exact h.types i u hu
  · intro i u (hu : Function.update s.values id (some v) i = some u)
    rw [hget]
    by_cases hi : i = id
    · subst hi
      rw [Function.update_self] at hu ⊢
      cases hu
      exact hw
    · rw [Function.update_of_ne hi] at hu ⊢
      exact h.values i u hu

/-- **STORE.** -/
theorem AtBody.store (other : PNRuntimeInstruction → PNThread → Except Stop PNThread) (sh : StepHost) {memory : PNMemory}
    (h : AtBody host module ex f base s th) (hc : Compiled host module ex f base stream)
    (hbb : f.bbs[s.block]? = some bb) (hinst : bb.instructions[s.index]? = some inst)
    (hs : Stores s.values s.memory inst memory) :
    ∃ th', executeInstruction ex stream other sh th = .ok th' ∧ AtBody host module ex f base
      { s with index := s.index + 1, memory := memory } th' := by
  obtain ⟨offsets, module', f', stored, hl⟩ := hc.lowered hbb hinst
  have hat := h.block_eq hbb
  have hstream := hl.stream
  have hlow := hl.lowered
  rw [← hat] at hstream
  cases hs with
  | @store dest id alignment p t x hp hx hin =>
    obtain ⟨t0, ht0, hlow⟩ := bind_eq_ok.mp hlow
    obtain rfl : t0 = t := hl.type_eq (h.types id _ hx) ht0
    obtain ⟨destType, -, hlow⟩ := bind_eq_ok.mp hlow
    split at hlow
    · cases hlow
    · obtain ⟨opcode, ho, hlow⟩ := bind_eq_ok.mp hlow
      cases hlow
      obtain ⟨hmemtype, rfl⟩ := ifType_eq_ok ho
      obtain ⟨hbytes, hwidth⟩ := memoryType_eq hmemtype
      have haddr : pnThreadGetValue ex th dest % 2 ^ 32 = p.toNat := h.values dest _ hp
      have hvalue : pnThreadGetValue ex th id % 2 ^ (8 * t0.bytes) = x.toNat :=
        (congrArg (fun w => pnThreadGetValue ex th id % 2 ^ w) (hbytes.trans hwidth.symm)).trans (h.values id _ hx)
      have hwrite : pnMemoryWrite th.memory t0.bytes p.toNat x.toNat =
          .ok { s.memory with data := storeBytes s.memory.data p.toNat t0.bytes x.toNat } := by
        rw [h.memory, pnMemoryWrite, memoryCheck_inBounds hin]
        rfl
      refine ⟨{ th with memory := _, inst := th.inst + 16 }, ?_, ⟨h.frame.inv, h.frame.frame, h.frame.values, h.frame.disjoint⟩,
        h.mark, ⟨bb, hbb, ?_⟩, rfl, h.types, h.values⟩
      · simp only [executeInstruction, hstream _ rfl, opcodeStore, haddr, hvalue, hwrite, ok_bind]
      · rw [instsSize_take_succ hinst, ← Nat.add_assoc, ← hat]
        rfl

/-- **A phi or a forward type reference** is not in the stream. -/
theorem AtBody.skip (h : AtBody host module ex f base s th) (hbb : f.bbs[s.block]? = some bb)
    (hinst : bb.instructions[s.index]? = some inst) (hskip : inst.isStored = false) :
    AtBody host module ex f base { s with index := s.index + 1 } th := by
  refine ⟨h.frame, h.mark, ⟨bb, hbb, ?_⟩, h.memory, h.types, h.values⟩
  rw [instsSize_take_succ hinst, unstored_size hskip]
  exact h.block_eq hbb

/-! ## Branches -/

/-- The address of a block that a branch names. -/
theorem bbOffsetAt_block (host : PNHost) (ho : ∀ n, n < f.bbs.length → offsets[n]? = some (f.blockAddr base n)) {b : Nat}
    (hS : f.bbs[toBbId b]? = some S) : bbOffsetAt host offsets b = f.blockAddr base (toBbId b) := by
  rw [bbOffsetAt, List.getD, ho _ (List.getElem?_eq_some_iff.mp hS).1]
  rfl

/-- **The block that a branch goes to** is where the executor goes. -/
theorem GoesTo.executes (other : PNRuntimeInstruction → PNThread → Except Stop PNThread) (sh : StepHost) {t : Nat}
    (hl : LoweredAt host module f base stream addr inst offsets module' f' stored)
    (ht : ∀ id v, s.values id = some v → basicTypeOf host module f id = .ok v.type)
    (hv : ∀ id v, s.values id = some v → Holds v.type (pnThreadGetValue ex th id) v.bits) (hinst : th.inst = addr)
    (hg : GoesTo s.values inst t) (hS : f.bbs[t]? = some S) :
    inst.isBranch = true ∧ executeInstruction ex stream other sh th = branchTo ex stream sh.malloc (f.blockAddr base t) th := by
  have h := hl.lowered
  have hat := hl.stream
  rw [← hinst] at hat
  cases hg with
  | @br trueBb falseBb =>
    rw [lowerInstruction, if_neg (not_not.mpr rfl), bbOffsetAt_block _ hl.blocks hS] at h
    cases h
    refine ⟨rfl, ?_⟩
    simp only [executeInstruction, opcodeBranch, hat _ rfl, Option.bind_some, newInst]
  | @brInt1 trueBb id falseBb x hid hx =>
    rw [lowerInstruction, if_pos hid] at h
    obtain ⟨t0, -, h⟩ := bind_eq_ok.mp h
    obtain ⟨_, -, h⟩ := bind_eq_ok.mp h
    cases h
    have hval : pnThreadGetValue ex th id % 2 ^ 8 = x.toNat := hv id _ hx
    refine ⟨rfl, ?_⟩
    simp only [executeInstruction, opcodeBranch, hat _ rfl, Option.bind_some, newInst, hval]
    rw [← bbOffsetAt_block host hl.blocks hS]
    rcases BitVec.eq_zero_or_eq_one x with rfl | rfl <;> rfl
  | @switch typeId id defaultBb cases bbs t x hi h1 hx =>
    obtain ⟨t0, ht0, h⟩ := bind_eq_ok.mp h
    obtain rfl : t0 = t := hl.type_eq (ht id _ hx) ht0
    obtain ⟨opcode, ho, h⟩ := bind_eq_ok.mp h
    cases h
    obtain ⟨-, rfl⟩ := ifType_eq_ok ho
    have hval : switchValue t0 (pnThreadGetValue ex th id) = x.toInt :=
      (switchValue_eq hi (hv id _ hx)).trans (if_neg h1)
    refine ⟨rfl, ?_⟩
    simp only [executeInstruction, opcodeBranch, hat _ rfl, Option.bind_some, newInst, hval]
    rw [← bbOffsetAt_block host hl.blocks hS, List.take_of_length_le (by rw [List.length_map]), List.find?_map]
    congr 1
    have heq : ((fun c : PNRuntimeSwitchCase => decide (x.toInt = c.value)) ∘
        fun c : PNSwitchCase => (⟨c.value, bbOffsetAt host offsets c.bb⟩ : PNRuntimeSwitchCase)) =
        fun c : PNSwitchCase => decide (c.value = x.toInt) := funext fun c => decide_eq_decide.mpr eq_comm
    rw [heq]
    cases cases.find? fun c => decide (c.value = x.toInt) <;> rfl

theorem getLast?_of_end {insts : List PNInstruction} {k : Nat} (hk : insts[k]? = some inst) (hend : insts.length = k + 1) :
    insts.getLast? = some inst ∧ insts.take k = insts.dropLast := by
  rw [List.getLast?_eq_getElem?, List.dropLast_eq_take, hend]
  exact ⟨hk, rfl⟩

/-- **A branch**: the phis of the block that it goes to get their values at once. -/
theorem AtBody.branch {t : Nat} (h : AtBody host module ex f base s th) (hc : Compiled host module ex f base stream)
    (hids : ex.numValues + f.values.length ≤ PN_INVALID_VALUE_ID) (hkept : f.EdgesKept)
    (hm : MallocOk (sh.malloc th.allocator.chunks) th.allocator.chunks) (hbb : f.bbs[s.block]? = some bb)
    (hinst : bb.instructions[s.index]? = some inst) (hend : bb.instructions.length = s.index + 1) (ht : GoesTo s.values inst t)
    (hS : f.bbs[t]? = some S)
    (hphi : ∀ m ∈ S.phiMoves s.block, ∃ v, s.values m.source = some v ∧ basicTypeOf host module f m.dest = .ok v.type) :
    Avoids (· ≠ outOfMemory) (executeInstruction ex stream other sh th)
      (AtBody host module ex f base ⟨t, 0, movesAtOnce s.values (S.phiMoves s.block), s.memory⟩) := by
  obtain ⟨_, module', f', stored, hl⟩ := hc.lowered hbb hinst
  have hat := h.block_eq hbb
  obtain ⟨hbr, hexec⟩ := ht.executes other sh hl h.types h.values hat hS
  obtain ⟨hlast, htake⟩ := getLast?_of_end hinst hend
  obtain ⟨offsets, hblock⟩ := hc.branch hbb hlast hbr
  obtain ⟨hlen, hedges⟩ := hkept _ bb hbb
  obtain ⟨halone, hok⟩ := hedges t S hS
  have hterm : th.inst = f.terminatorAddr base s.block bb := by rw [hat, htake, PNFunction.terminatorAddr]
  obtain ⟨hnodup, hlt⟩ := hblock.dests_edge halone hS
  have hdests : DestsLocal ex f.values.length (f.blockAddr base t) (bb.phiAssigns.map (runtimeAssign host offsets)) := by
    rw [DestsLocal, hblock.movesTo_eq halone hS]
    intro m hmove
    obtain ⟨typeId, incoming, hmem, -⟩ := mem_phiMoves.mp hmove
    obtain ⟨hge, hlt⟩ := hc.results (List.mem_flatMap.mpr ⟨S, List.mem_of_getElem? hS, hmem⟩) rfl
    exact ⟨hge, hlt, by omega⟩
  have hreturns := phiAssigns_returns bb.fastPhiAssign h.frame hm (by rwa [List.length_map]) hlt hdests h.mark
  rw [hexec]
  have hedge := hblock.phiEdge hlen rfl halone hS hok sh.malloc th
  rw [hblock.branchTo_eq hlen hterm] at hedge ⊢
  refine Avoids.bind_ok hreturns.2 fun th₁ hdo => .ok ?_
  have hk := hreturns.1 th₁ hdo
  have hphis := phisAssigned_iff.mp (hedge { th₁ with inst := f.blockAddr base t } ⟨h.frame, hm, hterm⟩
    (bind_eq_ok.mpr ⟨th₁, hdo, rfl⟩))
  -- the values behind the edge
  have hvalues : ∀ id v, movesAtOnce s.values (S.phiMoves s.block) id = some v → basicTypeOf host module f id = .ok v.type ∧
      Holds v.type (pnThreadGetValue ex { th₁ with inst := f.blockAddr base t } id) v.bits := by
    intro id v hv
    by_cases hid : id ∈ (S.phiMoves s.block).map Move.dest
    · obtain ⟨m, hmove, rfl⟩ := List.mem_map.mp hid
      obtain ⟨u, hu, hty⟩ := hphi m hmove
      rw [movesAtOnce_of_mem hnodup hmove, hu] at hv
      cases hv
      have hsource := basicTypeOf_lt (h.types m.source v hu)
      rw [hphis.1 m hmove (by rwa [hc.numValues])]
      exact ⟨hty, h.values m.source v hu⟩
    · rw [movesAtOnce_of_notMem hid] at hv
      have hty := h.types id v hv
      rw [hphis.2 id (by rw [hc.numValues]; exact basicTypeOf_lt hty) hid]
      exact ⟨hty, h.values id v hv⟩
  have hframe := h.frame.keeps hk
  refine ⟨⟨hframe.inv, hframe.frame, hframe.values, hframe.disjoint⟩, ?_, ⟨S, hS, rfl⟩, hk.memory.trans h.memory,
    fun id v hv => (hvalues id v hv).1, fun id v hv => (hvalues id v hv).2⟩
  rw [show ({ th₁ with inst := f.blockAddr base t } : PNThread).allocator = th.allocator from hk.allocator]
  exact h.mark

/-- One step of the body is one instruction of the executor. -/
theorem AtBody.step (h : AtBody host module ex f base s th) (hc : Compiled host module ex f base stream)
    (hids : ex.numValues + f.values.length ≤ PN_INVALID_VALUE_ID) (hkept : f.EdgesKept) (hm : MallocFresh ex sh.malloc)
    (hs : BodyStep host module f s s') :
    Avoids (· ≠ outOfMemory) (executeInstruction ex stream other sh th) (AtBody host module ex f base s') := by
  cases hs with
  | value hbb hinst he hty =>
    obtain ⟨th', hexec, h'⟩ := h.value other sh hc hids hbb hinst he hty
    rw [hexec]
    exact .ok h'
  | store hbb hinst hs =>
    obtain ⟨th', hexec, h'⟩ := h.store other sh hc hbb hinst hs
    rw [hexec]
    exact .ok h'
  | branch hbb hinst hend ht hS hphi => exact h.branch hc hids hkept (hm.ok _) hbb hinst hend ht hS hphi

/-- The executor follows a run of the body, whatever `malloc`, floating point and the unset bytes are in each step. -/
theorem AtBody.run (hc : Compiled host module ex f base stream) (hids : ex.numValues + f.values.length ≤ PN_INVALID_VALUE_ID)
    (hkept : f.EdgesKept) {n : Nat} (hrun : BodyRun host module f n s s') : ∀ {steps : List StepHost} {th : PNThread},
    AtBody host module ex f base s th → steps.length = n → (∀ step ∈ steps, MallocFresh ex step.malloc) →
    Avoids (· ≠ outOfMemory) (executeInstructions ex stream other steps th) (AtBody host module ex f base s') := by
  induction hrun with
  | refl s =>
    intro steps th h hlen _
    rw [List.eq_nil_of_length_eq_zero hlen]
    exact .ok h
  | skip hbb hinst hskip _ ih => exact fun h hlen hm => ih (h.skip hbb hinst hskip) hlen hm
  | step hstep _ ih =>
    intro steps th h hlen hm
    cases steps with
    | nil => cases hlen
    | cons step steps =>
      refine Avoids.bind (h.step hc hids hkept (hm step (List.mem_cons_self ..)) hstep) fun th₁ h₁ => ?_
      exact ih h₁ (Nat.succ.inj hlen) fun step hmem => hm step (List.mem_cons_of_mem _ hmem)

end Step

/-! ## The whole pass -/

/-- The values of `phiFile` when its function starts. -/
def phiValues : LlvmValues := fun id => if id = 2 then some ⟨.int1, 1#1⟩ else none

theorem PhiModule.basicTypeOf_eq {module : PNModule} (h : PhiModule false module) (id : Nat) :
    basicTypeOf zeroHost module (phiFunction false) id = basicTypeOf zeroHost phiState.module (phiFunction false) id :=
  basicTypeOf_congr h.types h.values rfl id

theorem PhiModule.atBody {module : PNModule} (h : PhiModule false module) : ∃ th, th.inst = 4096 ∧
    AtBody zeroHost module (phiExecutor false) (phiFunction false) 4096 ⟨0, 0, phiValues, demoMemory⟩ th := by
  obtain ⟨th, hinit, hi, hmark, hmem, hvalue⟩ : ∃ th,
      pnExecutorInit (phiExecutor false) demoMalloc (fun _ => 0) demoMemory ⟨0, 0, 0, 0⟩ = .ok th ∧ th.inst = 4096 ∧
      MarkFound th.allocator (pnAllocatorMark th.allocator) ∧ th.memory = demoMemory ∧
      pnThreadGetValue (phiExecutor false) th 2 = 1 :=
    ⟨_, rfl, rfl, by unfold MarkFound; decide, rfl, rfl⟩
  obtain ⟨e, -, hinv, -⟩ := init_inv (demoMalloc_fresh_of rfl) hinit
  have hframe := hinv.frameState
  have hrunning : th.functionId = e.functionId := hinv.running e rfl
  have hstart : th.functionId = 0 := by
    obtain ⟨th, hinit', hf, -⟩ : ∃ th, pnExecutorInit (phiExecutor false) demoMalloc (fun _ => 0) demoMemory ⟨0, 0, 0, 0⟩ =
        .ok th ∧ th.functionId = 0 ∧ True := ⟨_, rfl, rfl, trivial⟩
    cases hinit.symm.trans hinit'
    exact hf
  rw [← hrunning, hstart] at hframe
  have hone : ∀ id v, phiValues id = some v → id = 2 ∧ v = ⟨.int1, 1#1⟩ := by
    intro id v hv
    unfold phiValues at hv
    split at hv
    next hid =>
      cases hv
      exact ⟨hid, rfl⟩
    next => cases hv
  refine ⟨th, hi, hframe, hmark, ⟨_, rfl, hi⟩, hmem, fun id v hv => ?_, fun id v hv => ?_⟩
  · obtain ⟨rfl, rfl⟩ := hone id v hv
    rw [h.basicTypeOf_eq]
    rfl
  · obtain ⟨rfl, rfl⟩ := hone id v hv
    rw [hvalue]
    rfl

end Pnacl
