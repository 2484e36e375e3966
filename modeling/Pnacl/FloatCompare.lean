import Pnacl.IntegerSemantics
import Pnacl.Lib.FloatOrder

/-!
# Comparison of floating point

The cases of `pn_thread_execute_instruction` for the FCMP opcodes. A predicate is named by its ULGE bits, one for each outcome of a
comparison. The opcodes follow them except ONE, ORD, UNO and UEQ, which are built on `!=` as if it were false on unordered operands
(`fcmp_iff`).
-/

namespace Pnacl

open Lib

/-- `PN_OPCODE_CMP2`, `PN_OPCODE_CMP2_NOT`, `PN_OPCODE_CMP2_ORD` and `PN_OPCODE_CMP2_UNO`. -/
inductive PNFcmpCase where
  | cmp2 (op : CRel)
  | cmp2Not (op : CRel)
  | cmp2Ord
  | cmp2Uno
deriving Repr, DecidableEq

/-- The macro for each predicate. -/
def fcmpCase : PNCmp2 → Option PNFcmpCase
  | .fcmpOeq => some (.cmp2 .eq)
  | .fcmpOge => some (.cmp2 .ge)
  | .fcmpOgt => some (.cmp2 .gt)
  | .fcmpOle => some (.cmp2 .le)
  | .fcmpOlt => some (.cmp2 .lt)
  | .fcmpOne => some (.cmp2 .ne)
  | .fcmpOrd => some .cmp2Ord
  | .fcmpUeq => some (.cmp2Not .ne)
  | .fcmpUge => some (.cmp2Not .lt)
  | .fcmpUgt => some (.cmp2Not .le)
  | .fcmpUle => some (.cmp2Not .gt)
  | .fcmpUlt => some (.cmp2Not .ge)
  | .fcmpUne => some (.cmp2Not .eq)
  | .fcmpUno => some .cmp2Uno
  | _ => none

/-- The expression of the macro. -/
def PNFcmpCase.eval (f : FloatFormat) (value0 value1 : Nat) : PNFcmpCase → Bool
  | .cmp2 op => op.evalFloat f value0 value1
  | .cmp2Not op => !op.evalFloat f value0 value1
  | .cmp2Ord => CRel.eq.evalFloat f value0 value1 || CRel.ne.evalFloat f value0 value1
  | .cmp2Uno => !(CRel.eq.evalFloat f value0 value1 || CRel.ne.evalFloat f value0 value1)

/-- The format of the member `f32` or `f64`. -/
def PNBasicType.floatFormat : PNBasicType → Option FloatFormat
  | .float => some .single
  | .double => some .binary64
  | _ => none

/-- The opcodes of floating point: those of FCMP, and `other`. -/
def floatOps (ret : Nat) (other : PNOpcode → List Nat → Nat) (opcode : PNOpcode) (values : List Nat) : Nat :=
  match opcode, values with
  | .cmp2 op type0, [value0, value1] =>
    match fcmpCase op, type0.floatFormat with
    | some c, some f =>
      pnExecutorValue ret .u8 (if c.eval f (value0 % 2 ^ f.width) (value1 % 2 ^ f.width) then 1 else 0)
    | _, _ => other opcode values
  | _, _ => other opcode values

/-! ## The ULGE bits -/

/-- The bit of a predicate's code that says what an outcome gives: E, G, L, U. -/
def ulgeBit : FloatOrder → Nat
  | .equal => 0
  | .greater => 1
  | .less => 2
  | .unordered => 3

/-- ONE, ORD, UNO and UEQ. -/
def UsesNotEqual (code : Nat) : Prop := 6 ≤ code ∧ code ≤ 9

instance (code : Nat) : Decidable (UsesNotEqual code) := inferInstanceAs (Decidable (_ ∧ _))

/-- Every code has a predicate with a macro for both widths. The macro gives the bit of the code unless it is built on `!=` and the
operands are unordered. -/
theorem fcmpCase_ulge {code : Nat} (h1 : 1 ≤ code) (h14 : code ≤ 14) : ∃ op c, PNCmp2.ofNat? code = some op ∧ fcmpCase op = some c ∧
    op.types = [.double, .float] ∧ cmp2Case op .float = none ∧ cmp2Case op .double = none ∧
    ∀ f x y, c.eval f x y = code.testBit (ulgeBit (f.compare x y)) ↔ ¬(UsesNotEqual code ∧ f.compare x y = .unordered) := by
  interval_cases code <;> refine ⟨_, _, rfl, rfl, rfl, rfl, rfl, fun f x y => ?_⟩ <;> simp only [PNFcmpCase.eval, CRel.evalFloat_eq] <;>
    cases f.compare x y <;> decide

/-! ## Lowering and execution -/

section

variable {host : PNHost} {module : PNModule} {function : PNFunction}

/-- **FCMP.** Lowering a comparison of floats and executing the opcode gives the bit of the predicate's code for the outcome, except
that ONE, ORD, UNO and UEQ give the opposite on unordered operands. -/
theorem fcmp_iff (other : PNOpcode → List Nat → Nat) (ret : Nat) (value : Nat → Nat) (bbOffsets : List Nat) {code res id₀ id₁ : Nat}
    {t : PNBasicType} {f : FloatFormat} (h1 : 1 ≤ code) (h14 : code ≤ 14) (hf : t.floatFormat = some f)
    (h₀ : basicTypeOf host module function id₀ = .ok t) (h₁ : basicTypeOf host module function id₁ = .ok t) :
    ∃ r v, lowerInstruction host module function bbOffsets (.cmp2 res id₀ id₁ code) = .ok (some r) ∧
      instructionResult (floatOps ret other) ret value r = .ok v ∧
      (v % 2 ^ 8 = (code.testBit (ulgeBit (f.compare (value id₀ % 2 ^ f.width) (value id₁ % 2 ^ f.width)))).toNat ↔
        ¬(UsesNotEqual code ∧ f.compare (value id₀ % 2 ^ f.width) (value id₁ % 2 ^ f.width) = .unordered)) := by
  obtain ⟨op, c, hop, hc, htypes, hfl, hdb, hbit⟩ := fcmpCase_ulge h1 h14
  have ht : t ∈ op.types := by
    rw [htypes]
    cases t <;> first | decide | cases hf
  have hnone : cmp2Case op t = none := by
    cases t <;> first | assumption | cases hf
  refine ⟨.cmp2 (some (.cmp2 op t)) res id₀ id₁,
    pnExecutorValue ret .u8 (if c.eval f (value id₀ % 2 ^ f.width) (value id₁ % 2 ^ f.width) then 1 else 0), ?_, ?_, ?_⟩
  · simp only [lowerInstruction, h₀, h₁, ok_bind, cmp2Opcode, hop, ifType, if_pos ht]
    simp
  · simp only [instructionResult, hnone, floatOps, hc, hf]
  · rw [← hbit]
    refine Eq.congr_left (pnExecutorValue_mod ret .u8 _) |>.trans ?_
    cases c.eval f (value id₀ % 2 ^ f.width) (value id₁ % 2 ^ f.width) <;> cases code.testBit (ulgeBit _) <;> decide

end

/-! ## A NaN -/

def demoFloats : PNModule := { pnModuleInit ⟨fun _ => 0, 2 ^ 16⟩ with types := [.float] }

/-- The first operand is a NaN, the second is 1. -/
def demoNaN : Nat → Nat := fun id => if id = 0 then 0x7FC00000 else 0x3F800000

/-- OEQ of a NaN is false. -/
theorem fcmp_iff_oeq : ∃ r v, lowerInstruction zeroHost demoFloats demoProduct [] (.cmp2 2 0 1 1) = .ok (some r) ∧
    instructionResult (floatOps 0 fun _ _ => 0) 0 demoNaN r = .ok v ∧ v % 2 ^ 8 = 0 := by
  obtain ⟨r, v, hl, he, h⟩ := @fcmp_iff zeroHost demoFloats demoProduct (fun _ _ => 0) 0 demoNaN [] 1 2 0 1 .float .single
    (by decide) (by decide) rfl rfl rfl
  exact ⟨r, v, hl, he, (h.mpr (by decide)).trans (by decide)⟩

/-- ONE of a NaN is true; bit U of its code is 0. -/
theorem fcmp_one_unordered : ∃ r v, lowerInstruction zeroHost demoFloats demoProduct [] (.cmp2 2 0 1 6) = .ok (some r) ∧
    instructionResult (floatOps 0 fun _ _ => 0) 0 demoNaN r = .ok v ∧ v % 2 ^ 8 = 1 ∧
    FloatFormat.single.compare (demoNaN 0) (demoNaN 1) = .unordered ∧ Nat.testBit 6 (ulgeBit .unordered) = false :=
  ⟨_, _, rfl, rfl, by decide, by decide, by decide⟩

end Pnacl
