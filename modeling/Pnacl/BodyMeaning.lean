import Pnacl.Decode
import Pnacl.IntegerSemantics
import Pnacl.PhiMoves

/-!
# What the body of a function means

The meaning of a body is given on its blocks, before any pass: values are bit vectors of their types, an instruction computes a new
one from others, a branch goes to a block, and on the way there the phis of that block get the values that their entries name, all
at once. Nothing of it mentions opcodes, the stream or the executor. A body has no meaning where LLVM leaves it undefined, and none
where it uses a value in another type than its own. Floating point, ALLOCA and calls are left out.
-/

namespace Pnacl

open Lib

/-- A value of a type. -/
structure LlvmValue where
  type : PNBasicType
  bits : BitVec type.width

/-- The values that are defined, by their ids. -/
abbrev LlvmValues := Nat → Option LlvmValue

/-- The bytes that a value takes in memory. -/
def PNBasicType.bytes (t : PNBasicType) : Nat := t.width / 8

/-- Where a run is: before the instruction `index` of `block`. -/
structure BodyState where
  block : Nat
  index : Nat
  values : LlvmValues
  memory : PNMemory

section

variable (host : PNHost) (module : PNModule) (f : PNFunction)

/-- The value that an instruction computes. A product of two `i16` has a meaning only if it fits an `int`. -/
inductive Evaluates (values : LlvmValues) (memory : PNMemory) : PNInstruction → Nat → LlvmValue → Prop where
  | binop {res id₀ id₁ code flags : Nat} {op : PNBinOp} {t : PNBasicType} {a b c : BitVec t.width}
      (hop : PNBinOp.ofNat? code = some op) (hi : t.isInteger = true) (ha : values id₀ = some ⟨t, a⟩)
      (hb : values id₁ = some ⟨t, b⟩) (hc : llvmBinop a b op = some c) (hfits : MulFits op t a b) :
      Evaluates values memory (.binop res id₀ id₁ code flags) res ⟨t, c⟩
  | cast {res id code typeId : Nat} {op : PNCast} {t : PNBasicType} {a : BitVec t.width}
      {c : BitVec (module.type host typeId).basicType.width} (hop : PNCast.ofNat? code = some op) (ha : values id = some ⟨t, a⟩)
      (hc : llvmCast _ a op = some c) : Evaluates values memory (.cast res id code typeId) res ⟨_, c⟩
  | cmp2 {res id₀ id₁ code : Nat} {op : PNCmp2} {t : PNBasicType} {a b : BitVec t.width} {c : Bool}
      (hop : PNCmp2.ofNat? code = some op) (hi : t.isInteger = true) (ha : values id₀ = some ⟨t, a⟩) (hb : values id₁ = some ⟨t, b⟩)
      (hc : llvmIcmp a b op = some c) : Evaluates values memory (.cmp2 res id₀ id₁ code) res ⟨.int1, BitVec.ofBool c⟩
  | vselect {res cond id₀ id₁ : Nat} {x : BitVec 1} {t : PNBasicType} {a b : BitVec t.width} (hx : values cond = some ⟨.int1, x⟩)
      (ha : values id₀ = some ⟨t, a⟩) (hb : values id₁ = some ⟨t, b⟩) :
      Evaluates values memory (.vselect res cond id₀ id₁) res ⟨t, if x = 1#1 then a else b⟩
  | load {res src alignment typeId : Nat} {p : BitVec 32} (hp : values src = some ⟨.int32, p⟩)
      (hin : memory.InBounds (p.toNat, (module.type host typeId).basicType.bytes)) :
      Evaluates values memory (.load res src alignment typeId) res
        ⟨(module.type host typeId).basicType,
          BitVec.ofNat _ (loadBytes memory.data p.toNat (module.type host typeId).basicType.bytes)⟩

/-- The memory behind a store. -/
inductive Stores (values : LlvmValues) (memory : PNMemory) : PNInstruction → PNMemory → Prop where
  | store {dest id alignment : Nat} {p : BitVec 32} {t : PNBasicType} {x : BitVec t.width} (hp : values dest = some ⟨.int32, p⟩)
      (hx : values id = some ⟨t, x⟩) (hin : memory.InBounds (p.toNat, t.bytes)) :
      Stores values memory (.store dest id alignment) { memory with data := storeBytes memory.data p.toNat t.bytes x.toNat }

/-- The block that a branch goes to. A case of a SWITCH is a signed number; that of an `i1` is left out. -/
inductive GoesTo (values : LlvmValues) : PNInstruction → Nat → Prop where
  | br {trueBb : Nat} {falseBb : Option Nat} : GoesTo values (.br trueBb falseBb PN_INVALID_VALUE_ID) (toBbId trueBb)
  | brInt1 {trueBb id : Nat} {falseBb : Option Nat} {x : BitVec 1} (hid : id ≠ PN_INVALID_VALUE_ID)
      (hx : values id = some ⟨.int1, x⟩) :
      GoesTo values (.br trueBb falseBb id) (toBbId (if x = 1#1 then trueBb else falseBb.getD PN_INVALID_BB_ID))
  | switch {typeId id defaultBb : Nat} {cases : List PNSwitchCase} {bbs : List Nat} {t : PNBasicType} {x : BitVec t.width}
      (hi : t.isInteger = true) (h1 : t ≠ .int1) (hx : values id = some ⟨t, x⟩) :
      GoesTo values (.switch typeId id defaultBb cases bbs)
        (toBbId ((cases.find? fun c => c.value = x.toInt).elim defaultBb PNSwitchCase.bb))

/-- One instruction of the body that the executor executes. The new value has the type that is declared for it. -/
inductive BodyStep : BodyState → BodyState → Prop where
  | value {s : BodyState} {bb : PNBasicBlock} {inst : PNInstruction} {id : Nat} {v : LlvmValue} (hbb : f.bbs[s.block]? = some bb)
      (hinst : bb.instructions[s.index]? = some inst) (he : Evaluates host module s.values s.memory inst id v)
      (hty : basicTypeOf host module f id = .ok v.type) :
      BodyStep s { s with index := s.index + 1, values := Function.update s.values id (some v) }
  | store {s : BodyState} {bb : PNBasicBlock} {inst : PNInstruction} {memory : PNMemory} (hbb : f.bbs[s.block]? = some bb)
      (hinst : bb.instructions[s.index]? = some inst) (hs : Stores s.values s.memory inst memory) :
      BodyStep s { s with index := s.index + 1, memory := memory }
  | branch {s : BodyState} {bb S : PNBasicBlock} {inst : PNInstruction} {t : Nat} (hbb : f.bbs[s.block]? = some bb)
      (hinst : bb.instructions[s.index]? = some inst) (hend : bb.instructions.length = s.index + 1)
      (ht : GoesTo s.values inst t) (hS : f.bbs[t]? = some S)
      (hphi : ∀ m ∈ S.phiMoves s.block, ∃ v, s.values m.source = some v ∧ basicTypeOf host module f m.dest = .ok v.type) :
      BodyStep s ⟨t, 0, movesAtOnce s.values (S.phiMoves s.block), s.memory⟩

/-- A run of `n` instructions. Phis and forward type references are passed by. -/
inductive BodyRun : Nat → BodyState → BodyState → Prop where
  | refl (s : BodyState) : BodyRun 0 s s
  | skip {n : Nat} {s s' : BodyState} {bb : PNBasicBlock} {inst : PNInstruction} (hbb : f.bbs[s.block]? = some bb)
      (hinst : bb.instructions[s.index]? = some inst) (hskip : inst.isStored = false)
      (h : BodyRun n { s with index := s.index + 1 } s') : BodyRun n s s'
  | step {n : Nat} {s s₁ s' : BodyState} (h : BodyStep host module f s s₁) (hrest : BodyRun n s₁ s') : BodyRun (n + 1) s s'

end

end Pnacl
