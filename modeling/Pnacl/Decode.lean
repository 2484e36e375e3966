import Mathlib.Data.List.Chain
import Pnacl.PhiEdges

/-!
# Decoding the instruction stream

The executor goes through a block by the sizes that each opcode adds to `thread->inst`, and reads the operands at offsets of its
own; nothing but these sizes says where the next instruction is. `decode_iff` says for which blocks of an accepted module it
finds all instructions that were written, with all their operands, and behind a branch all phi assigns.
-/

namespace Pnacl

open Lib

/-! ## The executor -/

/-- What the executor reads at an instruction: the operator and the operands. -/
inductive PNDecoded where
  | alloca (resultValueId sizeId alignment : Nat)
  | binop (op : PNBinOp) (resultValueId value0Id value1Id : Nat)
  | br (inst : Nat)
  | brInt1 (valueId trueInst falseInst : Nat)
  | call (resultValueId calleeId : Nat) (isIndirect isTailCall : Bool) (argIds : List Nat)
  | cast (op : PNCast) (resultValueId valueId : Nat)
  | cmp2 (op : PNCmp2) (resultValueId value0Id value1Id : Nat)
  | load (resultValueId srcId alignment : Nat)
  | ret
  | retValue (valueId : Nat)
  | store (destId valueId alignment : Nat)
  | switch (valueId defaultInst : Nat) (cases : List PNRuntimeSwitchCase)
  | unreachable
  | vselect (resultValueId condId trueValueId falseValueId : Nat)
deriving Repr, DecidableEq

/-- Of the arguments and the cases it reads as many as the counts say. Nothing is known of an opcode that was not set. -/
def PNRuntimeInstruction.decoded : PNRuntimeInstruction → Option PNDecoded
  | .alloca _ resultValueId sizeId alignment => some (.alloca resultValueId sizeId alignment)
  | .binop (some (.binop op _)) resultValueId value0Id value1Id => some (.binop op resultValueId value0Id value1Id)
  | .br inst => some (.br inst)
  | .brInt1 valueId trueInst falseInst => some (.brInt1 valueId trueInst falseInst)
  | .call _ resultValueId calleeId numArgs flags argIds =>
    some (.call resultValueId calleeId (flags % 2 = 1) (flags / 2 % 2 = 1) (argIds.take numArgs))
  | .cast (some (.cast op _ _)) resultValueId valueId => some (.cast op resultValueId valueId)
  | .cmp2 (some (.cmp2 op _)) resultValueId value0Id value1Id => some (.cmp2 op resultValueId value0Id value1Id)
  | .load _ resultValueId srcId alignment => some (.load resultValueId srcId alignment)
  | .ret => some .ret
  | .retValue valueId => some (.retValue valueId)
  | .store _ destId valueId alignment => some (.store destId valueId alignment)
  | .switch _ valueId defaultInst numCases cases => some (.switch valueId defaultInst (cases.take numCases))
  | .unreachable => some .unreachable
  | .vselect resultValueId condId trueValueId falseValueId => some (.vselect resultValueId condId trueValueId falseValueId)
  | _ => none

/-- What the executor adds to `thread->inst`, for a CALL when it has returned; `none` if it does not go on behind the
instruction. -/
def PNRuntimeInstruction.advance : PNRuntimeInstruction → Option Nat
  | .alloca _ _ _ _ | .binop (some _) _ _ _ | .cmp2 (some _) _ _ _ | .load _ _ _ _ | .store _ _ _ _ => some 16
  | .call _ _ _ numArgs _ _ => some (16 + 4 * numArgs)
  | .cast (some _) _ _ => some 12
  | .vselect _ _ _ _ => some 20
  | _ => none

/-- What a branch adds before it reads the phi header. -/
def PNRuntimeInstruction.phiHeader : PNRuntimeInstruction → Option Nat
  | .br _ => some 16
  | .brInt1 _ _ _ => some 24
  | .switch _ _ _ numCases _ => some (24 + 16 * numCases)
  | _ => none

/-- The first `n` instructions that the executor finds from `inst` on, with their addresses. -/
def visits (stream : PNIstream) : Nat → Nat → List (Nat × PNRuntimeInstruction)
  | 0, _ => []
  | n + 1, inst =>
    match stream.at inst with
    | none => []
    | some r => (inst, r) :: match r.advance with
      | none => []
      | some size => visits stream n (inst + size)

/-! ## What it should find -/

/-- PHI and FORWARDTYPEREF are not in the stream. -/
def PNInstruction.isStored : PNInstruction → Bool
  | .phi _ _ _ | .forwardtyperef _ _ => false
  | _ => true

/-- The instructions that are in the stream. -/
def PNBasicBlock.stored (bb : PNBasicBlock) : List PNInstruction := bb.instructions.filter PNInstruction.isStored

/-- With their addresses, from `offset` on. -/
def storedAt : Nat → List PNInstruction → List (Nat × PNInstruction)
  | _, [] => []
  | offset, inst :: rest => (if inst.isStored then [(offset, inst)] else []) ++ storedAt (offset + inst.streamSize) rest

/-- The function has the block that a number names. -/
def PNFunction.HasBb (f : PNFunction) (bb : Nat) : Prop := toBbId bb < f.bbs.length

instance (f : PNFunction) (bb : Nat) : Decidable (f.HasBb bb) := inferInstanceAs (Decidable (_ < _))

/-- Its address. -/
def PNFunction.bbAddr (f : PNFunction) (base bb : Nat) : Nat := f.blockAddr base (toBbId bb)

/-- What the executor should read for an instruction, if that names an operator and blocks of the function. -/
def PNInstruction.meaning (f : PNFunction) (base : Nat) : PNInstruction → Option PNDecoded
  | .binop resultValueId value0Id value1Id opcode _ =>
    (PNBinOp.ofNat? opcode).map fun op => .binop op resultValueId value0Id value1Id
  | .cast resultValueId valueId opcode _ => (PNCast.ofNat? opcode).map fun op => .cast op resultValueId valueId
  | .ret valueId => some (if valueId ≠ PN_INVALID_VALUE_ID then .retValue valueId else .ret)
  | .br trueBb falseBb valueId =>
    if valueId ≠ PN_INVALID_VALUE_ID then
      if f.HasBb trueBb ∧ f.HasBb (falseBb.getD PN_INVALID_BB_ID) then
        some (.brInt1 valueId (f.bbAddr base trueBb) (f.bbAddr base (falseBb.getD PN_INVALID_BB_ID)))
      else none
    else if f.HasBb trueBb then some (.br (f.bbAddr base trueBb)) else none
  | .switch _ valueId defaultBb cases _ =>
    if f.HasBb defaultBb ∧ ∀ c ∈ cases, f.HasBb c.bb then
      some (.switch valueId (f.bbAddr base defaultBb) (cases.map fun c => ⟨c.value, f.bbAddr base c.bb⟩))
    else none
  | .unreachable => some .unreachable
  | .alloca resultValueId sizeId alignment => some (.alloca resultValueId sizeId alignment)
  | .load resultValueId srcId alignment _ => some (.load resultValueId srcId alignment)
  | .store destId valueId alignment => some (.store destId valueId alignment)
  | .cmp2 resultValueId value0Id value1Id opcode =>
    (PNCmp2.ofNat? opcode).map fun op => .cmp2 op resultValueId value0Id value1Id
  | .vselect resultValueId condId trueValueId falseValueId => some (.vselect resultValueId condId trueValueId falseValueId)
  | .call resultValueId _ calleeId argIds _ isIndirect isTailCall =>
    some (.call resultValueId calleeId isIndirect isTailCall argIds)
  | .phi _ _ _ | .forwardtyperef _ _ => none

/-- **The executor decodes block `n`**: the instructions that it finds are those of the block, in order and at their addresses,
each with its operands, and if it leaves the block by a branch, the phi header that it reads describes all phi assigns. -/
structure BlockDecoded (f : PNFunction) (base : Nat) (stream : PNIstream) (n : Nat) (bb : PNBasicBlock) : Prop where
  insts : List.Forall₂ (fun v i => v.1 = i.1 ∧ ∃ d, v.2.decoded = some d ∧ i.2.meaning f base = some d)
    (visits stream bb.stored.length (f.blockAddr base n)) (storedAt (f.blockAddr base n) bb.instructions)
  phis : ∀ v ∈ (visits stream bb.stored.length (f.blockAddr base n)).getLast?, ∀ size, v.2.phiHeader = some size →
    ∃ numPhiAssigns fastPhiAssign assigns,
      stream.at (v.1 + size) = some (.phiTable numPhiAssigns fastPhiAssign assigns) ∧
      (fastPhiAssign ≠ 0 ↔ bb.fastPhiAssign = true) ∧
      assigns.take numPhiAssigns = bb.phiAssigns.map fun a => ⟨f.bbAddr base a.bbId, a.sourceValueId, a.destValueId⟩

/-- The instruction names an operator and blocks that there are, and a call has less than 256 arguments. -/
def PNInstruction.Fits (f : PNFunction) : PNInstruction → Prop
  | .binop _ _ _ opcode _ => (PNBinOp.ofNat? opcode).isSome
  | .cast _ _ opcode _ => (PNCast.ofNat? opcode).isSome
  | .cmp2 _ _ _ opcode => (PNCmp2.ofNat? opcode).isSome
  | .br trueBb falseBb valueId =>
    f.HasBb trueBb ∧ (valueId ≠ PN_INVALID_VALUE_ID → f.HasBb (falseBb.getD PN_INVALID_BB_ID))
  | .switch _ _ defaultBb cases _ => f.HasBb defaultBb ∧ ∀ c ∈ cases, f.HasBb c.bb
  | .call _ _ _ argIds _ _ _ => argIds.length < 2 ^ 8
  | _ => True

/-- Besides, nothing that is stored is behind a terminator, and a block that ends with a branch has less than 65536 phi
assigns. -/
structure BlockFits (f : PNFunction) (bb : PNBasicBlock) : Prop where
  fits : ∀ i ∈ bb.stored, i.Fits f
  flow : bb.stored.IsChain fun i _ => i.isTerminator = false
  phis : ∀ i ∈ bb.stored.getLast?, i.isBranch = true → bb.phiAssigns.length < 2 ^ 16

/-! ## One instruction -/

/-- What lowering makes of an instruction; `none` for one that is not stored. -/
inductive Lowered (host : PNHost) (offsets : List Nat) : PNInstruction → Option PNRuntimeInstruction → Prop where
  | binop {res id₀ id₁ code flags : Nat} {t : PNBasicType} : Lowered host offsets (.binop res id₀ id₁ code flags)
      (some (.binop ((PNBinOp.ofNat? code).map fun op => .binop op t) res id₀ id₁))
  | cast {res id code typeId : Nat} {t t1 : PNBasicType} : Lowered host offsets (.cast res id code typeId)
      (some (.cast ((PNCast.ofNat? code).map fun op => .cast op t t1) res id))
  | cmp2 {res id₀ id₁ code : Nat} {t : PNBasicType} : Lowered host offsets (.cmp2 res id₀ id₁ code)
      (some (.cmp2 ((PNCmp2.ofNat? code).map fun op => .cmp2 op t) res id₀ id₁))
  | ret : Lowered host offsets (.ret PN_INVALID_VALUE_ID) (some .ret)
  | retValue {id : Nat} (h : id ≠ PN_INVALID_VALUE_ID) : Lowered host offsets (.ret id) (some (.retValue id))
  | br {trueBb : Nat} {falseBb : Option Nat} : Lowered host offsets (.br trueBb falseBb PN_INVALID_VALUE_ID)
      (some (.br (bbOffsetAt host offsets trueBb)))
  | brInt1 {trueBb id : Nat} {falseBb : Option Nat} (h : id ≠ PN_INVALID_VALUE_ID) :
      Lowered host offsets (.br trueBb falseBb id)
        (some (.brInt1 id (bbOffsetAt host offsets trueBb) (bbOffsetAt host offsets (falseBb.getD PN_INVALID_BB_ID))))
  | switch {typeId id defaultBb : Nat} {cases : List PNSwitchCase} {bbs : List Nat} {opcode : PNOpcode} :
      Lowered host offsets (.switch typeId id defaultBb cases bbs) (some (.switch opcode id (bbOffsetAt host offsets defaultBb)
        cases.length (cases.map fun c => ⟨c.value, bbOffsetAt host offsets c.bb⟩)))
  | unreachable : Lowered host offsets .unreachable (some .unreachable)
  | alloca {res id alignment : Nat} {opcode : PNOpcode} :
      Lowered host offsets (.alloca res id alignment) (some (.alloca opcode res id alignment))
  | load {res id alignment typeId : Nat} {opcode : PNOpcode} :
      Lowered host offsets (.load res id alignment typeId) (some (.load opcode res id alignment))
  | store {dest id alignment : Nat} {opcode : PNOpcode} :
      Lowered host offsets (.store dest id alignment) (some (.store opcode dest id alignment))
  | vselect {res cond id₀ id₁ : Nat} : Lowered host offsets (.vselect res cond id₀ id₁) (some (.vselect res cond id₀ id₁))
  | call {res cc calleeId typeId : Nat} {argIds : List Nat} {isIndirect isTailCall isVoid : Bool} {opcode : PNOpcode} :
      Lowered host offsets (.call res cc calleeId argIds typeId isIndirect isTailCall)
        (some (.call opcode res calleeId (argIds.length % 2 ^ 8) (callFlags isIndirect isTailCall isVoid) argIds))
  | phi {res typeId : Nat} {incoming : List PNPhiIncoming} : Lowered host offsets (.phi res typeId incoming) none
  | forwardtyperef {id typeId : Nat} : Lowered host offsets (.forwardtyperef id typeId) none

section Instruction

variable {host : PNHost} {module : PNModule} {f : PNFunction} {base : Nat} {offsets : List Nat} {inst : PNInstruction}
  {r : PNRuntimeInstruction}

theorem binopOpcode_eq {code : Nat} {t : PNBasicType} {o : Option PNOpcode} (h : binopOpcode code t = .ok o) :
    o = (PNBinOp.ofNat? code).map fun op => .binop op t := by
  unfold binopOpcode at h
  split at h
  next op hop =>
    obtain ⟨o', ho, h⟩ := bind_eq_ok.mp h
    cases h
    rw [hop, (ifType_eq_ok ho).2]
    rfl
  next hop =>
    cases h
    rw [hop]
    rfl

theorem cmp2Opcode_eq {code : Nat} {t : PNBasicType} {o : Option PNOpcode} (h : cmp2Opcode code t = .ok o) :
    o = (PNCmp2.ofNat? code).map fun op => .cmp2 op t := by
  unfold cmp2Opcode at h
  split at h
  next op hop =>
    obtain ⟨o', ho, h⟩ := bind_eq_ok.mp h
    cases h
    rw [hop, (ifType_eq_ok ho).2]
    rfl
  next hop =>
    cases h
    rw [hop]
    rfl

theorem castOpcode_eq {code : Nat} {t t1 : PNBasicType} {o : Option PNOpcode} (h : castOpcode code t t1 = .ok o) :
    o = (PNCast.ofNat? code).map fun op => .cast op t t1 := by
  unfold castOpcode at h
  split at h
  next op hop =>
    dsimp only at h
    split at h
    · cases h
      rw [hop]
      rfl
    · cases h
  next hop =>
    cases h
    rw [hop]
    rfl

theorem lowerInstruction_lowered {o : Option PNRuntimeInstruction} (h : lowerInstruction host module f offsets inst = .ok o) :
    Lowered host offsets inst o := by
  cases inst with
  | binop res id₀ id₁ code flags =>
    obtain ⟨t, -, h⟩ := bind_eq_ok.mp h
    obtain ⟨t1, -, h⟩ := bind_eq_ok.mp h
    split at h
    · cases h
    · obtain ⟨opcode, ho, h⟩ := bind_eq_ok.mp h
      cases h
      rw [binopOpcode_eq ho]
      exact .binop
  | cast res id code typeId =>
    obtain ⟨t, -, h⟩ := bind_eq_ok.mp h
    obtain ⟨opcode, ho, h⟩ := bind_eq_ok.mp h
    cases h
    rw [castOpcode_eq ho]
    exact .cast
  | ret id =>
    rw [lowerInstruction] at h
    cases h
    by_cases hid : id = PN_INVALID_VALUE_ID
    · subst hid
      exact .ret
    · rw [if_pos hid]
      exact .retValue hid
  | br trueBb falseBb id =>
    rw [lowerInstruction] at h
    split at h
    next hid =>
      obtain ⟨t, -, h⟩ := bind_eq_ok.mp h
      obtain ⟨_, -, h⟩ := bind_eq_ok.mp h
      cases h
      exact .brInt1 hid
    next hid =>
      cases h
      rw [not_not.mp hid]
      exact .br
  | switch typeId id defaultBb cases bbs =>
    obtain ⟨t, -, h⟩ := bind_eq_ok.mp h
    obtain ⟨opcode, -, h⟩ := bind_eq_ok.mp h
    cases h
    exact .switch
  | unreachable =>
    cases h
    exact .unreachable
  | alloca res id alignment =>
    obtain ⟨t, -, h⟩ := bind_eq_ok.mp h
    obtain ⟨opcode, -, h⟩ := bind_eq_ok.mp h
    cases h
    exact .alloca
  | load res id alignment typeId =>
    obtain ⟨t, -, h⟩ := bind_eq_ok.mp h
    split at h
    · cases h
    · obtain ⟨opcode, -, h⟩ := bind_eq_ok.mp h
      cases h
      exact .load
  | store dest id alignment =>
    obtain ⟨t, -, h⟩ := bind_eq_ok.mp h
    obtain ⟨t1, -, h⟩ := bind_eq_ok.mp h
    split at h
    · cases h
    · obtain ⟨opcode, -, h⟩ := bind_eq_ok.mp h
      cases h
      exact .store
  | cmp2 res id₀ id₁ code =>
    obtain ⟨t, -, h⟩ := bind_eq_ok.mp h
    obtain ⟨t1, -, h⟩ := bind_eq_ok.mp h
    split at h
    · cases h
    · obtain ⟨opcode, ho, h⟩ := bind_eq_ok.mp h
      cases h
      rw [cmp2Opcode_eq ho]
      exact .cmp2
  | vselect res cond id₀ id₁ =>
    obtain ⟨t, -, h⟩ := bind_eq_ok.mp h
    obtain ⟨t1, -, h⟩ := bind_eq_ok.mp h
    obtain ⟨t2, -, h⟩ := bind_eq_ok.mp h
    split at h
    · cases h
    · split at h
      · cases h
      · cases h
        exact .vselect
  | call res cc calleeId argIds typeId isIndirect isTailCall =>
    obtain ⟨opcode, -, h⟩ := bind_eq_ok.mp h
    cases h
    exact .call
  | phi res typeId incoming =>
    cases h
    exact .phi
  | forwardtyperef id typeId =>
    cases h
    exact .forwardtyperef

/-- What is stored, and how far the executor goes. -/
theorem Lowered.isStored {o : Option PNRuntimeInstruction} (h : Lowered host offsets inst o) : inst.isStored = o.isSome := by
  cases h <;> rfl

theorem Lowered.advance (h : Lowered host offsets inst (some r)) (hf : inst.Fits f) :
    r.advance = if inst.isTerminator then none else some inst.streamSize := by
  cases h with
  | binop =>
    obtain ⟨op, hop⟩ := Option.isSome_iff_exists.mp hf
    rw [hop]
    rfl
  | cast =>
    obtain ⟨op, hop⟩ := Option.isSome_iff_exists.mp hf
    rw [hop]
    rfl
  | cmp2 =>
    obtain ⟨op, hop⟩ := Option.isSome_iff_exists.mp hf
    rw [hop]
    rfl
  | call =>
    simp only [PNRuntimeInstruction.advance, PNInstruction.isTerminator, PNInstruction.streamSize]
    rw [Nat.mod_eq_of_lt hf]
    rfl
  | _ => rfl

theorem Lowered.phiHeader (h : Lowered host offsets inst (some r)) :
    r.phiHeader = if inst.isBranch then some inst.streamSize else none := by
  cases h with
  | brInt1 h => simp [PNRuntimeInstruction.phiHeader, PNInstruction.isBranch, PNInstruction.streamSize, h]
  | _ => rfl

/-- The address of a block that there is. -/
theorem bbOffsetAt_eq (ho : ∀ n, n < f.bbs.length → offsets[n]? = some (f.blockAddr base n)) {bb : Nat} (h : f.HasBb bb) :
    bbOffsetAt host offsets bb = f.bbAddr base bb := by
  unfold bbOffsetAt PNFunction.bbAddr
  rw [List.getD_eq_getElem?_getD, ho _ h]
  rfl

theorem callFlags_bits (isIndirect isTailCall isVoid : Bool) :
    decide (callFlags isIndirect isTailCall isVoid % 2 = 1) = isIndirect ∧
      decide (callFlags isIndirect isTailCall isVoid / 2 % 2 = 1) = isTailCall := by
  cases isIndirect <;> cases isTailCall <;> cases isVoid <;> decide

/-- The executor reads what the instruction means iff it fits. -/
theorem Lowered.decoded_iff (ho : ∀ n, n < f.bbs.length → offsets[n]? = some (f.blockAddr base n))
    (h : Lowered host offsets inst (some r)) : (∃ d, r.decoded = some d ∧ inst.meaning f base = some d) ↔ inst.Fits f := by
  cases h with
  | @binop res id₀ id₁ code =>
    simp only [PNInstruction.meaning, PNInstruction.Fits]
    cases PNBinOp.ofNat? code <;> simp [PNRuntimeInstruction.decoded]
  | @cast res id code =>
    simp only [PNInstruction.meaning, PNInstruction.Fits]
    cases PNCast.ofNat? code <;> simp [PNRuntimeInstruction.decoded]
  | @cmp2 res id₀ id₁ code =>
    simp only [PNInstruction.meaning, PNInstruction.Fits]
    cases PNCmp2.ofNat? code <;> simp [PNRuntimeInstruction.decoded]
  | ret => simp [PNRuntimeInstruction.decoded, PNInstruction.meaning, PNInstruction.Fits]
  | retValue h => simp [PNRuntimeInstruction.decoded, PNInstruction.meaning, PNInstruction.Fits, h]
  | @br trueBb falseBb =>
    by_cases hb : f.HasBb trueBb
    · simp [PNRuntimeInstruction.decoded, PNInstruction.meaning, PNInstruction.Fits, hb, bbOffsetAt_eq ho hb]
    · simp [PNInstruction.meaning, PNInstruction.Fits, hb]
  | @brInt1 trueBb id falseBb h =>
    by_cases hb : f.HasBb trueBb ∧ f.HasBb (falseBb.getD PN_INVALID_BB_ID)
    · simp [PNRuntimeInstruction.decoded, PNInstruction.meaning, PNInstruction.Fits, h, hb, bbOffsetAt_eq ho hb.1, bbOffsetAt_eq ho hb.2]
    · simp [PNInstruction.meaning, PNInstruction.Fits, h, hb]
  | @switch typeId id defaultBb cases =>
    by_cases hb : f.HasBb defaultBb ∧ ∀ c ∈ cases, f.HasBb c.bb
    · have hcases : (cases.map fun c => (⟨c.value, bbOffsetAt host offsets c.bb⟩ : PNRuntimeSwitchCase)) =
          cases.map fun c => ⟨c.value, f.bbAddr base c.bb⟩ :=
        List.map_congr_left fun c hc => by rw [bbOffsetAt_eq ho (hb.2 c hc)]
      simp only [PNRuntimeInstruction.decoded, PNInstruction.meaning, PNInstruction.Fits, if_pos hb, bbOffsetAt_eq ho hb.1, hcases]
      rw [List.take_of_length_le (by simp)]
      exact iff_of_true ⟨_, rfl, rfl⟩ hb
    · simp [PNInstruction.meaning, PNInstruction.Fits, hb]
  | @call res cc calleeId typeId argIds isIndirect isTailCall isVoid =>
    obtain ⟨h₁, h₂⟩ := callFlags_bits isIndirect isTailCall isVoid
    simp only [PNRuntimeInstruction.decoded, PNInstruction.meaning, PNInstruction.Fits, h₁, h₂]
    constructor
    · rintro ⟨d, hd, hd'⟩
      cases hd'
      have htake : argIds.take (argIds.length % 2 ^ 8) = argIds := by simpa using hd
      have hlen := congrArg List.length htake
      rw [List.length_take] at hlen
      omega
    · intro hlt
      rw [Nat.mod_eq_of_lt hlt, List.take_length]
      exact ⟨_, rfl, rfl⟩
  | unreachable | alloca | load | store | vselect =>
    simp [PNRuntimeInstruction.decoded, PNInstruction.meaning, PNInstruction.Fits]

end Instruction

/-! ## A block -/

section Block

variable {host : PNHost} {module : PNModule} {f : PNFunction} {base : Nat} {offsets : List Nat} {stream : PNIstream}

/-- An instruction and what is stored for it. -/
def Stored (host : PNHost) (offsets : List Nat) (e : Nat × PNRuntimeInstruction) (i : Nat × PNInstruction) : Prop :=
  e.1 = i.1 ∧ Lowered host offsets i.2 (some e.2)

theorem storedAt_map (offset : Nat) (insts : List PNInstruction) :
    (storedAt offset insts).map Prod.snd = insts.filter PNInstruction.isStored := by
  induction insts generalizing offset with
  | nil => rfl
  | cons inst rest ih =>
    rw [storedAt, List.map_append, ih, List.filter_cons]
    split <;> simp

/-- What the writing pass stores for the instructions of a block. -/
theorem writeInstructions_stored {insts : List PNInstruction} {offset next : Nat} {s : PNIstream}
    (h : writeInstructions host module f offsets true insts offset = .ok (next, s)) :
    List.Forall₂ (Stored host offsets) s (storedAt offset insts) := by
  induction insts generalizing offset s with
  | nil =>
    cases h
    exact .nil
  | cons inst rest ih =>
    rw [writeInstructions] at h
    obtain ⟨stored, hst, h⟩ := bind_eq_ok.mp h
    obtain ⟨⟨next', s'⟩, hrest, h⟩ := bind_eq_ok.mp h
    cases h
    have hlow := lowerInstruction_lowered (o := stored) hst
    rw [storedAt, hlow.isStored]
    cases stored with
    | none => exact ih hrest
    | some r => exact .cons ⟨rfl, hlow⟩ (ih hrest)

theorem unstored_size {inst : PNInstruction} (h : inst.isStored = false) : inst.streamSize = 0 := by
  cases inst <;> first | rfl | cases h

theorem instsSize_unstored {insts : List PNInstruction} (h : insts.filter PNInstruction.isStored = []) :
    instsSize insts = 0 := by
  induction insts with
  | nil => rfl
  | cons inst rest ih =>
    obtain ⟨hinst, hrest⟩ := List.forall_mem_cons.mp (List.filter_eq_nil_iff.mp h)
    have := ih (List.filter_eq_nil_iff.mpr hrest)
    simp only [instsSize, List.map_cons, List.sum_cons, unstored_size (Bool.eq_false_iff.mpr hinst), Nat.zero_add] at this ⊢
    exact this

/-- What the executor should find at an instruction. -/
def Found (f : PNFunction) (base : Nat) (v : Nat × PNRuntimeInstruction) (i : Nat × PNInstruction) : Prop :=
  v.1 = i.1 ∧ ∃ d, v.2.decoded = some d ∧ i.2.meaning f base = some d

/-- **The executor finds the instructions of a block iff they fit and only the last one of them is a terminator.** -/
theorem visits_iff (ho : ∀ n, n < f.bbs.length → offsets[n]? = some (f.blockAddr base n)) {insts : List PNInstruction}
    {offset : Nat} {s : PNIstream} (hs : List.Forall₂ (Stored host offsets) s (storedAt offset insts))
    (hat : ∀ e ∈ s, stream.at e.1 = some e.2) :
    List.Forall₂ (Found f base) (visits stream (insts.filter PNInstruction.isStored).length offset) (storedAt offset insts) ↔
      (∀ i ∈ insts.filter PNInstruction.isStored, i.Fits f) ∧
        (insts.filter PNInstruction.isStored).IsChain fun i _ => i.isTerminator = false := by
  induction insts generalizing offset s with
  | nil => simp [visits, storedAt]
  | cons inst rest ih =>
    rw [storedAt] at hs ⊢
    by_cases hst : inst.isStored = true
    · rw [if_pos hst, List.singleton_append] at hs ⊢
      rw [List.filter_cons_of_pos hst]
      cases hs with
      | @cons e _ s' _ he hs' =>
        obtain ⟨rfl, hlow⟩ := he
        have hfirst := hat e (List.mem_cons_self ..)
        have ih := ih hs' fun e' he' => hat e' (List.mem_cons_of_mem _ he')
        have hfound : Found f base (e.1, e.2) (e.1, inst) ↔ inst.Fits f := (and_iff_right rfl).trans (hlow.decoded_iff ho)
        rw [List.length_cons, visits, hfirst]
        simp only [List.forall₂_cons, List.forall_mem_cons, hfound]
        by_cases hfit : inst.Fits f
        · rw [hlow.advance hfit, List.isChain_cons]
          cases hterm : inst.isTerminator with
          | false => simp [hfit, ih]
          | true =>
            -- the executor does not go on behind a terminator
            have hnil : List.Forall₂ (Found f base) [] (storedAt (e.1 + inst.streamSize) rest) ↔
                rest.filter PNInstruction.isStored = [] := by
              rw [List.forall₂_nil_left_iff, ← storedAt_map (e.1 + inst.streamSize), List.map_eq_nil_iff]
            simp only [if_true, hnil, hfit, true_and]
            cases rest.filter PNInstruction.isStored with
            | nil => simp
            | cons i l => simp
        · exact iff_of_false (fun h => hfit h.1) fun h => hfit h.1.1
    · have hsize := unstored_size (Bool.eq_false_iff.mpr hst)
      rw [if_neg hst, List.nil_append, hsize, Nat.add_zero] at hs ⊢
      rw [List.filter_cons_of_neg hst]
      exact ih hs hat

/-- What is found is in the stream. -/
theorem mem_visits {n a : Nat} {v : Nat × PNRuntimeInstruction} (h : v ∈ visits stream n a) : stream.at v.1 = some v.2 := by
  induction n generalizing a with
  | zero => cases h
  | succ n ih =>
    rw [visits] at h
    split at h
    · cases h
    · next r hr =>
      rcases List.mem_cons.mp h with rfl | h
      · exact hr
      · split at h
        · cases h
        · exact ih h

theorem visited_eq {n a : Nat} {v e : Nat × PNRuntimeInstruction} (hv : v ∈ (visits stream n a).getLast?)
    (he : stream.at e.1 = some e.2) (h : v.1 = e.1) : v.2 = e.2 := by
  have hat := mem_visits (List.mem_of_getLast? hv)
  rw [h, he] at hat
  exact (Option.some.inj hat).symm

theorem forall₂_getLast? {α β : Type} {R : α → β → Prop} {l : List α} {l' : List β} (h : List.Forall₂ R l l') {a : α}
    (ha : a ∈ l.getLast?) : ∃ b ∈ l'.getLast?, R a b := by
  induction h with
  | nil => cases ha
  | @cons x y l l' hxy _ ih =>
    rw [List.getLast?_cons] at ha ⊢
    cases hl : l.getLast? with
    | none =>
      rw [hl] at ha
      cases ha
      have hnil : l' = [] := by
        cases List.getLast?_eq_none_iff.mp hl
        exact List.forall₂_nil_left_iff.mp ‹_›
      rw [hnil]
      exact ⟨y, rfl, hxy⟩
    | some b =>
      rw [hl] at ha
      cases ha
      obtain ⟨c, hc, hR⟩ := ih hl
      exact ⟨c, by rw [Option.mem_def.mp hc]; rfl, hR⟩

/-- Behind the last stored instruction there is nothing else of the block. -/
theorem storedAt_getLast? {insts : List PNInstruction} {offset : Nat} {i : Nat × PNInstruction}
    (h : i ∈ (storedAt offset insts).getLast?) :
    i.1 + i.2.streamSize = offset + instsSize insts ∧ i.2 ∈ (insts.filter PNInstruction.isStored).getLast? := by
  refine ⟨?_, ?_⟩
  · induction insts generalizing offset with
    | nil => cases h
    | cons inst rest ih =>
      have hsize : instsSize (inst :: rest) = inst.streamSize + instsSize rest := by simp [instsSize]
      rw [hsize, ← Nat.add_assoc]
      rw [storedAt, List.getLast?_append] at h
      cases hl : (storedAt (offset + inst.streamSize) rest).getLast? with
      | some j =>
        rw [hl] at h
        cases h
        exact ih hl
      | none =>
        rw [hl] at h
        have hnil := congrArg (List.map Prod.snd) (List.getLast?_eq_none_iff.mp hl)
        rw [storedAt_map, List.map_nil] at hnil
        rw [instsSize_unstored hnil]
        split at h
        · obtain rfl : (offset, inst) = i := by simpa using h
          rfl
        · cases h
  · rw [← storedAt_map offset, List.getLast?_map, Option.mem_def.mp h]
    rfl

/-- **The executor decodes a block that was written to its address iff the block fits.** -/
theorem blockDecoded_iff {f₂ : PNFunction} {n next : Nat} {bb : PNBasicBlock} {s : PNIstream}
    (ho : ∀ n, n < f.bbs.length → offsets[n]? = some (f.blockAddr base n))
    (hw : pnBasicBlockWriteInstructionStream host module f₂ bb offsets (f.blockAddr base n) true = .ok (next, s))
    (hat : ∀ e ∈ s, stream.at e.1 = some e.2) (hphis : ∀ a ∈ bb.phiAssigns, f.HasBb a.bbId) :
    BlockDecoded f base stream n bb ↔ BlockFits f bb := by
  obtain ⟨⟨mid, t⟩, hi, hw⟩ := bind_eq_ok.mp hw
  have hstored := writeInstructions_stored hi
  obtain ⟨rfl, -⟩ := writeInstructions_spec hi
  have hats : ∀ e ∈ t, stream.at e.1 = some e.2 := by
    intro e he
    apply hat
    dsimp only at hw
    split at hw
    · cases hw
      exact List.mem_append_left _ he
    · cases hw
      exact he
  have hvisits := visits_iff ho hstored hats
  -- the last instruction, if it is a branch, and the table behind it
  have hlast : ∀ i ∈ bb.stored.getLast?, i.isBranch = true →
      stream.at (f.blockAddr base n + instsSize bb.instructions) = some (bb.phiTable host offsets) := by
    intro i hi hb
    have hmem : i ∈ bb.instructions := (List.mem_filter.mp (List.mem_of_getLast? hi)).1
    dsimp only at hw
    rw [if_pos (List.any_eq_true.mpr ⟨i, hmem, hb⟩)] at hw
    cases hw
    exact hat _ (List.mem_append_right _ (List.mem_singleton_self _))
  have htable : bb.phiAssigns.map (fun a => (⟨bbOffsetAt host offsets a.bbId, a.sourceValueId, a.destValueId⟩ :
      PNRuntimePhiAssign)) = bb.phiAssigns.map fun a => ⟨f.bbAddr base a.bbId, a.sourceValueId, a.destValueId⟩ :=
    List.map_congr_left fun a ha => by rw [bbOffsetAt_eq ho (hphis a ha)]
  constructor
  · intro hd
    obtain ⟨hfits, hflow⟩ := hvisits.mp hd.insts
    refine ⟨hfits, hflow, fun i hi hb => ?_⟩
    obtain ⟨j, hj, hji⟩ : ∃ j ∈ (storedAt (f.blockAddr base n) bb.instructions).getLast?, j.2 = i := by
      have := hi
      rw [PNBasicBlock.stored, ← storedAt_map (f.blockAddr base n), List.getLast?_map] at this
      obtain ⟨j, hj, rfl⟩ := Option.map_eq_some_iff.mp this
      exact ⟨j, hj, rfl⟩
    obtain ⟨v, hv, hvj, -⟩ := forall₂_getLast? hd.insts.flip hj
    obtain ⟨e, he, hej, hlow⟩ := forall₂_getLast? hstored.flip hj
    have hve := visited_eq hv (hats e (List.mem_of_getLast? he)) (hvj.trans hej.symm)
    have hheader : v.2.phiHeader = some i.streamSize := by rw [hve, hlow.phiHeader, hji, if_pos hb]
    obtain ⟨num, fast, assigns, hread, -, htake⟩ := hd.phis v hv _ hheader
    rw [hvj, ← hji, (storedAt_getLast? hj).1, hlast i hi hb] at hread
    cases hread
    have hlen := congrArg List.length htake
    rw [List.length_take, List.length_map, List.length_map] at hlen
    have := Nat.mod_lt bb.phiAssigns.length (Nat.two_pow_pos 16)
    omega
  · intro hfit
    have hinsts := hvisits.mpr ⟨hfit.fits, hfit.flow⟩
    refine ⟨hinsts, fun v hv size hsize => ?_⟩
    obtain ⟨j, hj, hvj, -⟩ := forall₂_getLast? hinsts hv
    obtain ⟨e, he, hej, hlow⟩ := forall₂_getLast? hstored.flip hj
    have hve := visited_eq hv (hats e (List.mem_of_getLast? he)) (hvj.trans hej.symm)
    obtain ⟨haddr, hmem⟩ := storedAt_getLast? hj
    rw [hve, hlow.phiHeader] at hsize
    split at hsize
    · next hb =>
      cases hsize
      rw [hvj, haddr]
      refine ⟨_, _, _, hlast j.2 hmem hb, ?_, ?_⟩
      · cases bb.fastPhiAssign <;> simp
      · rw [htable, Nat.mod_eq_of_lt (hfit.phis j.2 hmem hb), List.take_of_length_le (by simp)]
    · cases hsize

end Block

/-! ## An accepted module -/

section Module

variable {host : PNHost} {dedupe : Bool} {fuel : Nat}

/-- The function is the result of the passes on another one. -/
def PassesRead (host : PNHost) (_numValues functionId : Nat) (f : PNFunction) : Prop :=
  ∃ module f₀ g, pnFunctionPasses host module functionId f₀ = .ok g ∧ SameBody g f

theorem passesRead_body : BodyProperty host dedupe fuel (PassesRead host) := by
  constructor
  · rintro numValues numValues' functionId f f' ⟨module, f₀, g, hp, hsame⟩ - hf
    exact ⟨module, f₀, g, hp, hsame.trans hf⟩
  · intro rs functionId f argTypes abbrevs s bs bs' _ h
    have hk : (pnFunctionBlock host dedupe fuel).Keeps (fun _ => True)
        (fun s => PassesRead host s.rs.module.values.length s.functionId s.function) := by
      constructor
      · intro s s' bs bs' _ h
        obtain ⟨_, f, hp, rfl⟩ := pnFunctionBlock_endBlock_cases h
        exact ⟨_, _, _, hp, .of_unnamed rfl⟩
      all_goals intros; trivial
    exact readBlock_inv hk trivial h

/-- The phi assigns that the passes leave name blocks of the function. -/
theorem phiAssigns_hasBb {f f' : PNFunction} (h : pnFunctionCalculatePhiAssigns f = .ok f') {n : Nat} {bb : PNBasicBlock}
    (hn : f'.bbs[n]? = some bb) : ∀ a ∈ bb.phiAssigns, f'.HasBb a.bbId := by
  obtain ⟨-, -, hblocks⟩ := phiAssigns_spec h
  intro a ha
  rw [hblocks n] at hn
  obtain ⟨b, -, rfl⟩ := Option.map_eq_some_iff.mp hn
  obtain ⟨⟨m, use⟩, hm, rfl⟩ := List.mem_map.mp ha
  obtain ⟨⟨b', k⟩, hk, hu⟩ := List.mem_flatMap.mp (List.mem_filter.mp hm).1
  obtain ⟨use', -, heq⟩ := List.mem_map.mp hu
  cases heq
  have hlt : m < f.bbs.length := by
    have := List.snd_lt_of_mem_zipIdx hk
    omega
  have hlen : f'.bbs.length = f.bbs.length := (insts_congr (phiAssigns_instructions h)).2
  simp only [PNFunction.HasBb, assignOf, toBbId, hlen]
  omega

/-- **The executor decodes a block of an accepted function exactly as it was written iff the block fits.** -/
theorem decode_iff {memory : PNMemory} {rs : PNReadState} {bs bs' : PNBitStream} {f : PNFunction} {base n : Nat}
    {stream : PNIstream} {bb : PNBasicBlock} (h : pnModuleRead host dedupe fuel (pnModuleInit memory) bs = .ok (rs, bs'))
    (hf : f ∈ rs.module.functions) (hstream : f.instructions = some (base, stream)) (hn : f.bbs[n]? = some bb) :
    BlockDecoded f base stream n bb ↔ BlockFits f bb := by
  obtain ⟨functionId, module, f₀, g, hpass, hsame⟩ := pnModuleRead_functions passesRead_body h hf (by simp [hstream])
  obtain ⟨f₁, f₂, -, h₂, h₃, hg⟩ := pnFunctionPasses_cases hpass
  have hbbs : f.bbs = f₂.bbs := by rw [hsame.bbs, hg]
  obtain ⟨stream', offsets, heq, hoffsets, hblocks⟩ := calculateOpcodes_block (host.instructions_le functionId) h₃
  have hcode : g.instructions = some (host.instructions functionId, stream') := by rw [heq]
  rw [← hsame.instructions, hstream] at hcode
  cases hcode
  have haddr : ∀ n, f₂.blockAddr (host.instructions functionId) n = f.blockAddr (host.instructions functionId) n := by
    intro n
    rw [PNFunction.blockAddr, PNFunction.blockAddr, hbbs]
  obtain ⟨next, s, hw, hat⟩ := hblocks (hbbs ▸ hn)
  rw [haddr n] at hw
  apply blockDecoded_iff _ hw hat
  · intro a ha
    have := phiAssigns_hasBb h₂ (hbbs ▸ hn) a ha
    rwa [PNFunction.HasBb, ← hbbs] at this
  · intro n hn
    rw [← haddr]
    exact hoffsets n (hbbs ▸ hn)

end Module

/-- The loop with the swap fits. -/
theorem decode_swap : ∃ rs bs' f, readFile swapFile = .ok (rs, bs') ∧ f ∈ rs.module.functions ∧
    f.bbs[2]? = some swapLoop ∧ BlockDecoded f 4096 swapStream 2 swapLoop := by
  obtain ⟨rs, bs', f, h, -, hf, hbbs, -, hinsts⟩ := swapFile_read
  have hloop : f.bbs[2]? = some swapLoop := by rw [hbbs]; rfl
  have hlen : f.bbs.length = 3 := by rw [hbbs]; rfl
  refine ⟨rs, bs', f, h, hf, hloop, (decode_iff h hf hinsts hloop).mpr ⟨?_, ?_, ?_⟩⟩
  · have hstored : swapLoop.stored = [.br 1 (some 2) 1] := by decide
    rw [hstored]
    simp [PNInstruction.Fits, PNFunction.HasBb, hlen, toBbId]
  · decide
  · decide

/-! ## A call with 256 arguments -/

/-- The bytes of a file with one function, which has 256 parameters of type `i32` and calls itself with 256 arguments. -/
def callFile (i : Nat) : UInt8 :=
  if i < 35 then
    [80, 69, 88, 69, 0, 0, 0, 0, 33, 8, 0, 0, 0, 0, 0, 0, 69, 8, 0, 0, 0, 0, 0, 0, 7, 193, 176, 0, 124, 4, 96, 112, 37, 34,
      0].getD i 0
  else if i < 227 then [16, 4, 65].getD ((i - 35) % 3) 0
  else if i < 247 then [0, 35, 132, 0, 0, 64, 12, 2, 0, 0, 0, 0, 0, 7, 65, 176, 24, 136, 8, 0].getD (i - 227) 0
  else if i < 439 then [4, 65, 16].getD ((i - 247) % 3) 0
  else [172].getD (i - 439) 0

/-- The executor reads no argument. -/
theorem call_args_lost : ∃ rs bs' f base stream bb,
    pnModuleRead zeroHost true 448 (pnModuleInit ⟨fun _ => 0, 2 ^ 16⟩) (pnBitstreamInit callFile 448) = .ok (rs, bs') ∧
      f ∈ rs.module.functions ∧ f.instructions = some (base, stream) ∧ f.bbs[0]? = some bb ∧
      ¬BlockDecoded f base stream 0 bb := by
  have heval : (pnModuleRead zeroHost true 448 (pnModuleInit ⟨fun _ => 0, 2 ^ 16⟩) (pnBitstreamInit callFile 448)).toOption.map
      (fun r => r.1.module.functions.map fun f =>
        (f.bbs.map PNBasicBlock.instructions, f.instructions.bind fun p => p.2.at p.1)) =
      some [([[.call PN_INVALID_VALUE_ID 0 0 (List.replicate 256 1) 0 false false, .ret PN_INVALID_VALUE_ID]],
        some (.call .call PN_INVALID_VALUE_ID 0 0 4 (List.replicate 256 1)))] := by
    decide +kernel
  obtain ⟨⟨rs, bs'⟩, h, hrs⟩ := eq_ok_of_toOption heval
  obtain ⟨f, hf, heq⟩ := List.mem_map.mp (hrs ▸ List.mem_singleton_self _)
  obtain ⟨hbbs, heq⟩ := Prod.mk.inj heq
  obtain ⟨⟨base, stream⟩, hstream, hat⟩ := Option.bind_eq_some_iff.mp heq
  obtain ⟨bb, hbb, hinsts⟩ := List.map_eq_singleton_iff.mp hbbs
  refine ⟨rs, bs', f, base, stream, bb, h, hf, hstream, by rw [hbb]; rfl, fun hd => ?_⟩
  have hvisits := hd.insts
  have haddr : f.blockAddr base 0 = base := rfl
  have hstored : bb.stored.length = 2 := by
    rw [PNBasicBlock.stored, hinsts]
    rfl
  dsimp only at hat
  rw [hinsts, hstored, haddr, visits, hat] at hvisits
  obtain ⟨⟨-, d, hdec, hsays⟩, -⟩ := List.forall₂_cons.mp hvisits
  cases hdec
  cases hsays

end Pnacl
