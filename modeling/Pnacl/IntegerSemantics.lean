import Pnacl.IntegerOps

/-!
# Integer instructions compute what LLVM says

The meaning of an instruction is given on bit vectors of the width of its type. Lowering chooses an opcode, and executing it on
the members of the operands stores the bits of that meaning (`integer_semantics`), except that MUL of 16 bits multiplies two
`uint16_t` as `int`, where a product from `2 ^ 31` on has no meaning in C.
-/

namespace Pnacl

open Lib

/-! ## The meaning of an instruction -/

/-- The bits of a value. -/
def PNBasicType.width : PNBasicType → Nat
  | .void => 0 | .int1 => 1 | .int8 => 8 | .int16 => 16 | .int32 | .float => 32 | .int64 | .double => 64

/-- The bits that are stored: an `i1` is a byte. -/
def PNBasicType.memberWidth : PNBasicType → Nat
  | .int1 => 8
  | t => t.width

def PNBasicType.isInteger : PNBasicType → Bool
  | .int1 | .int8 | .int16 | .int32 | .int64 => true
  | .void | .float | .double => false

/-- A union holds a value: its first bytes are the value, those behind it are anything. -/
def Holds (t : PNBasicType) (value : Nat) (x : BitVec t.width) : Prop := value % 2 ^ t.memberWidth = x.toNat

/-- The result of a binary operator, unless LLVM leaves it undefined. -/
def llvmBinop {w : Nat} (a b : BitVec w) : PNBinOp → Option (BitVec w)
  | .add => some (a + b)
  | .sub => some (a - b)
  | .mul => some (a * b)
  | .udiv => if b = 0 then none else some (a / b)
  | .sdiv => if b = 0 ∨ a = BitVec.intMin w ∧ b = -1#w then none else some (a.sdiv b)
  | .urem => if b = 0 then none else some (a % b)
  | .srem => if b = 0 ∨ a = BitVec.intMin w ∧ b = -1#w then none else some (a.srem b)
  | .shl => if b.toNat < w then some (a <<< b) else none
  | .lshr => if b.toNat < w then some (a >>> b) else none
  | .ashr => if b.toNat < w then some (a.sshiftRight' b) else none
  | .and => some (a &&& b)
  | .or => some (a ||| b)
  | .xor => some (a ^^^ b)

/-- The integer casts. -/
def llvmCast {w : Nat} (v : Nat) (a : BitVec w) : PNCast → Option (BitVec v)
  | .trunc | .zext => some (a.setWidth v)
  | .sext => some (a.signExtend v)
  | _ => none

/-- The integer predicates. -/
def llvmIcmp {w : Nat} (a b : BitVec w) : PNCmp2 → Option Bool
  | .icmpEq => some (a == b)
  | .icmpNe => some (a != b)
  | .icmpUgt => some (b.ult a)
  | .icmpUge => some (b.ule a)
  | .icmpUlt => some (a.ult b)
  | .icmpUle => some (a.ule b)
  | .icmpSgt => some (b.slt a)
  | .icmpSge => some (b.sle a)
  | .icmpSlt => some (a.slt b)
  | .icmpSle => some (a.sle b)
  | _ => none

/-! ## Members -/

theorem pnExecutorValue_mod (ret : Nat) (m : PNMember) (x : Int) :
    pnExecutorValue ret m x % 2 ^ m.type.width = (BitVec.ofInt m.type.width x).toNat := by
  unfold pnExecutorValue
  rw [Nat.mul_add_mod, Nat.mod_eq_of_lt (BitVec.isLt _)]

theorem bits_eq {m : PNMember} {value : Nat} {a : BitVec m.type.width} (h : value % 2 ^ m.type.width = a.toNat) :
    m.bits value = a := by
  apply BitVec.eq_of_toNat_eq
  rw [PNMember.bits, BitVec.toNat_ofNat, h]

/-- A binary operation stores the bits of the operation on bit vectors, if C defines it. -/
theorem pnOpcodeBinop_ok_iff {ret value0 value1 : Nat} {op : COp} {m : PNMember} {t : CType} (hm : m.type = t)
    {a b : BitVec t.width} (ha : value0 % 2 ^ t.width = a.toNat) (hb : value1 % 2 ^ t.width = b.toNat) :
    (∃ v, pnOpcodeBinop ret op m value0 value1 = .ok v ∧ v % 2 ^ t.width = (op.bits t.signed a b).toNat) ↔
      (op.apply t a b).isSome := by
  subst hm
  unfold pnOpcodeBinop
  rw [bits_eq ha, bits_eq hb]
  constructor
  · rintro ⟨v, hv, -⟩
    split at hv
    next h => rw [h]; rfl
    next => cases hv
  · intro hd
    obtain ⟨x, hx⟩ := Option.isSome_iff_exists.mp hd
    rw [hx]
    exact ⟨_, rfl, by rw [pnExecutorValue_mod, COp.eval_bits hx]⟩

/-! ## BINOP -/

/-- The operation of C for an operator, and whether it is one of a signed type. -/
def PNBinOp.cOp : PNBinOp → COp × Bool
  | .add => (.add, false) | .sub => (.sub, false) | .mul => (.mul, false) | .udiv => (.div, false) | .sdiv => (.div, true)
  | .urem => (.mod, false) | .srem => (.mod, true) | .shl => (.shl, false) | .lshr => (.shr, false) | .ashr => (.shr, true)
  | .and => (.and, false) | .or => (.or, false) | .xor => (.xor, false)

/-- Every opcode has a case of the right operation, signedness and width. -/
theorem binopCase_eq {op : PNBinOp} {t : PNBasicType} (h : t ∈ op.types) (hi : t.isInteger = true) :
    ∃ m, binopCase op t = some (op.cOp.1, m) ∧ m.type = ⟨t.memberWidth, op.cOp.2⟩ := by
  cases op <;> cases t <;> first | exact ⟨_, rfl, rfl⟩ | exact absurd h (by decide) | exact absurd hi (by decide)

/-- Where LLVM defines a result, the operation is a defined one and has this result. -/
theorem llvmBinop_eq {w : Nat} {a b c : BitVec w} {op : PNBinOp} (h : llvmBinop a b op = some c) :
    op.cOp.1.Defined op.cOp.2 a b ∧ op.cOp.1.bits op.cOp.2 a b = c := by
  cases op with
  | add | sub | mul | and | or | xor =>
    cases h
    exact ⟨trivial, rfl⟩
  | udiv | urem =>
    simp only [llvmBinop] at h
    split at h
    · cases h
    next hb =>
      cases h
      exact ⟨⟨hb, fun h => by cases h⟩, rfl⟩
  | sdiv | srem =>
    simp only [llvmBinop] at h
    split at h
    · cases h
    next hb =>
      cases h
      exact ⟨⟨fun h => hb (.inl h), fun _ h => hb (.inr h)⟩, rfl⟩
  | shl | lshr | ashr =>
    simp only [llvmBinop] at h
    split at h
    next hb =>
      cases h
      exact ⟨hb, rfl⟩
    · cases h

/-- The product of two `uint16_t` is an `int`. -/
def MulFits (op : PNBinOp) (t : PNBasicType) (a b : BitVec t.width) : Prop :=
  ¬(op = .mul ∧ t = .int16 ∧ 2 ^ 31 ≤ a.toNat * b.toNat)

/-- When C defines the operation of a case, for types wider than `i1`. -/
theorem apply_isSome_iff {op : PNBinOp} {t : PNBasicType} (h : t ∈ op.types) (hi : t.isInteger = true) (h1 : t ≠ .int1)
    {a b : BitVec t.width} (hd : op.cOp.1.Defined op.cOp.2 a b) :
    (op.cOp.1.apply ⟨t.width, op.cOp.2⟩ a b).isSome ↔ MulFits op t a b := by
  have hw : t.width = 8 ∨ t = .int16 ∨ t.width = 32 ∨ t.width = 64 := by
    cases t <;> first | decide | exact absurd hi (by decide) | exact absurd rfl h1
  have hw' : t.width ≤ 16 ∨ 32 ≤ t.width := by
    rcases hw with hw | rfl | hw | hw
    · omega
    · decide
    · omega
    · omega
  by_cases hmul : op = .mul
  · subst hmul
    unfold MulFits
    refine (apply_mul_isSome_iff (t := ⟨t.width, false⟩) rfl).trans ?_
    have ha := a.isLt
    have hb := b.isLt
    rcases hw with hw | rfl | hw | hw
    · have hlt : a.toNat * b.toNat < 2 ^ t.width * 2 ^ t.width := Nat.mul_lt_mul'' ha hb
      simp only [hw] at hlt ⊢
      exact iff_of_true (fun _ => by omega) fun h => by omega
    · simp [PNBasicType.width]
    · exact iff_of_true (fun h => by simp only at h; omega) fun h => by rw [h.2.1] at hw; exact absurd hw (by decide)
    · exact iff_of_true (fun h => by simp only at h; omega) fun h => by rw [h.2.1] at hw; exact absurd hw (by decide)
  · refine iff_of_true ?_ fun h => hmul h.1
    cases op with
    | sdiv | srem =>
      have : 32 ≤ t.width := by cases t <;> first | decide | exact absurd h (by decide)
      exact COp.apply_isSome_of_signed rfl (by simp [PNBinOp.cOp, this]) hd
    | ashr => exact COp.apply_isSome_of_signed rfl (.inl rfl) hd
    | mul => exact absurd rfl hmul
    | add | sub | udiv | urem | shl | lshr | and | or | xor => exact COp.apply_isSome_of_unsigned rfl hw' (by decide) hd

theorem PNBasicType.memberWidth_eq {t : PNBasicType} (h : t ≠ .int1) : t.memberWidth = t.width := by
  cases t <;> first | rfl | exact absurd rfl h

theorem toNat_setWidth_byte (x : BitVec 1) : (x.setWidth 8).toNat = x.toNat := BitVec.toNat_setWidth_of_le (by decide)

variable {float : PNOpcode → List Nat → Nat} {ret : Nat} {value : Nat → Nat}

/-- **BINOP.** -/
theorem binop_result {op : PNBinOp} {t : PNBasicType} (h : t ∈ op.types) (hi : t.isInteger = true) {res id₀ id₁ : Nat}
    {a b c : BitVec t.width} (ha : Holds t (value id₀) a) (hb : Holds t (value id₁) b) (hc : llvmBinop a b op = some c) :
    (∃ v, instructionResult float ret value (.binop (some (.binop op t)) res id₀ id₁) = .ok v ∧ Holds t v c) ↔
      MulFits op t a b := by
  obtain ⟨m, hm, hty⟩ := binopCase_eq h hi
  obtain ⟨hd, hbits⟩ := llvmBinop_eq hc
  unfold Holds at ha hb ⊢
  simp only [instructionResult, hm]
  by_cases h1 : t = .int1
  · -- the byte of an `i1` is 0 or 1, and so is the result
    subst h1
    have hset := toNat_setWidth_byte
    have hok := @pnOpcodeBinop_ok_iff ret _ _ op.cOp.1 _ _ hty (a.setWidth 8) (b.setWidth 8)
      (ha.trans (hset a).symm) (hb.trans (hset b).symm)
    have hres : (op.cOp.1.bits op.cOp.2 (a.setWidth 8) (b.setWidth 8)).toNat = c.toNat := by
      subst hbits
      cases op with
      | and => exact (congrArg BitVec.toNat BitVec.setWidth_and).symm.trans (hset _)
      | or => exact (congrArg BitVec.toNat BitVec.setWidth_or).symm.trans (hset _)
      | xor => exact (congrArg BitVec.toNat BitVec.setWidth_xor).symm.trans (hset _)
      | _ => exact absurd h (by decide)
    rw [← hres]
    refine hok.trans (iff_of_true ?_ fun h' => by cases h'.2.1)
    cases op with
    | and | or | xor => exact COp.apply_isSome_of_unsigned rfl (.inl (by decide)) (by decide) trivial
    | _ => exact absurd h (by decide)
  · rw [PNBasicType.memberWidth_eq h1] at hty ha hb ⊢
    subst hbits
    exact (pnOpcodeBinop_ok_iff hty ha hb).trans (apply_isSome_iff h hi h1 hd)

/-! ## CAST -/

/-- The cases of the integer casts. -/
inductive CastShape : PNCast → PNBasicType → PNBasicType → PNCastCase → Prop where
  | sext {t t1 : PNBasicType} {m m1 : PNMember} (h : t ≠ .int1) (h1 : t1 ≠ .int1) (hm : m.type = ⟨t.width, true⟩)
      (hm1 : m1.type.width = t1.width) : CastShape .sext t t1 (.cast m m1)
  | zext {t t1 : PNBasicType} {m m1 : PNMember} (h : t ≠ .int1) (h1 : t1 ≠ .int1) (hm : m.type = ⟨t.width, false⟩)
      (hm1 : m1.type.width = t1.width) : CastShape .zext t t1 (.cast m m1)
  | trunc {t t1 : PNBasicType} {m m1 : PNMember} (h : t ≠ .int1) (h1 : t1 ≠ .int1) (hm : m.type.width = t.width)
      (hm1 : m1.type.width = t1.width) (hle : t1.width ≤ t.width) : CastShape .trunc t t1 (.cast m m1)
  | sext1 {t1 : PNBasicType} {m : PNMember} (h1 : t1 ≠ .int1) (hm : m.type.width = t1.width) : CastShape .sext .int1 t1 (.sext1 m)
  | zext1 {t1 : PNBasicType} {m : PNMember} (h1 : t1 ≠ .int1) (hm : m.type.width = t1.width) : CastShape .zext .int1 t1 (.zext1 m)
  | trunc1 {t : PNBasicType} {m : PNMember} (h : t ≠ .int1) (hm : m.type = ⟨t.width, false⟩) (hw : 0 < t.width) :
      CastShape .trunc t .int1 (.trunc1 m)

theorem castCase_eq {op : PNCast} {t t1 : PNBasicType} (h : (t, t1) ∈ op.types) (hop : op = .trunc ∨ op = .zext ∨ op = .sext) :
    ∃ c, castCase op t t1 = some c ∧ CastShape op t t1 c := by
  rcases hop with rfl | rfl | rfl
  · cases t <;> cases t1 <;> first
      | exact absurd h (by decide)
      | exact ⟨_, rfl, .trunc1 (by decide) rfl (by decide)⟩
      | exact ⟨_, rfl, .trunc (by decide) (by decide) rfl rfl (by decide)⟩
  · cases t <;> cases t1 <;> first
      | exact absurd h (by decide)
      | exact ⟨_, rfl, .zext1 (by decide) rfl⟩
      | exact ⟨_, rfl, .zext (by decide) (by decide) rfl rfl⟩
  · cases t <;> cases t1 <;> first
      | exact absurd h (by decide)
      | exact ⟨_, rfl, .sext1 (by decide) rfl⟩
      | exact ⟨_, rfl, .sext (by decide) (by decide) rfl rfl⟩

/-- Reading a member whose type is known. -/
theorem read_eq {m : PNMember} {t : CType} (hm : m.type = t) {v : Nat} {a : BitVec t.width} (h : v % 2 ^ t.width = a.toNat) :
    m.read v = t.value a := by
  subst hm
  rw [PNMember.read, bits_eq h]

/-- The byte of an `i1`. -/
theorem read_int1 {v : Nat} {a : BitVec 1} (h : v % 2 ^ 8 = a.toNat) : PNMember.u8.read v = a.toNat := by
  rw [read_eq (m := .u8) (t := ⟨8, false⟩) rfl (a := a.setWidth 8) (h.trans (toNat_setWidth_byte a).symm)]
  exact congrArg Int.ofNat (toNat_setWidth_byte a)

/-- An `i1` that is widened with zeros. -/
theorem ofInt_int1 (a : BitVec 1) (w : Nat) : BitVec.ofInt w ((a.toNat : Int) % 2) = a.setWidth w := by
  rw [Int.emod_eq_of_lt (by omega) (by omega), BitVec.ofInt_natCast, BitVec.ofNat_toNat]

/-- The lowest bit in a byte. -/
theorem toNat_ofInt_lowest {w : Nat} (a : BitVec w) : (BitVec.ofInt 8 ((a.toNat : Int) % 2)).toNat = (a.setWidth 1).toNat := by
  rw [BitVec.toNat_ofInt, BitVec.toNat_setWidth]
  omega

theorem executorValue_holds {m : PNMember} {w : Nat} (hm : m.type.width = w) (ret : Nat) (x : Int) :
    pnExecutorValue ret m x % 2 ^ w = (BitVec.ofInt w x).toNat := by
  subst hm
  exact pnExecutorValue_mod ret m x

/-- **CAST.** -/
theorem cast_result {op : PNCast} {t t1 : PNBasicType} (h : (t, t1) ∈ op.types) {res id : Nat} {a : BitVec t.width}
    {c : BitVec t1.width} (ha : Holds t (value id) a) (hc : llvmCast t1.width a op = some c) :
    ∃ v, instructionResult float ret value (.cast (some (.cast op t t1)) res id) = .ok v ∧ Holds t1 v c := by
  have hop : op = .trunc ∨ op = .zext ∨ op = .sext := by
    cases op <;> first | decide | cases hc
  obtain ⟨k, hk, hshape⟩ := castCase_eq h hop
  refine ⟨k.exec ret (value id), ?_, ?_⟩
  · simp only [instructionResult, hk]
    rcases hop with rfl | rfl | rfl <;> rfl
  unfold Holds at ha ⊢
  cases hshape with
  | sext h h1 hm hm1 =>
    cases hc
    rw [PNBasicType.memberWidth_eq h] at ha
    rw [PNBasicType.memberWidth_eq h1, PNCastCase.exec, executorValue_holds hm1, read_eq hm ha]
    rfl
  | zext h h1 hm hm1 =>
    cases hc
    rw [PNBasicType.memberWidth_eq h] at ha
    rw [PNBasicType.memberWidth_eq h1, PNCastCase.exec, executorValue_holds hm1, read_eq hm ha]
    simp [CType.value]
  | @trunc _ _ m _ h h1 hm hm1 hle =>
    cases hc
    rw [PNBasicType.memberWidth_eq h] at ha
    have hty : m.type = ⟨t.width, m.type.signed⟩ := by rw [← hm]
    rw [PNBasicType.memberWidth_eq h1, PNCastCase.exec, executorValue_holds hm1, read_eq hty ha,
      CType.ofInt_value_of_le hle]
  | sext1 h1 hm =>
    cases hc
    rw [PNBasicType.memberWidth_eq h1, PNCastCase.exec, executorValue_holds hm, read_int1 ha]
    rcases BitVec.eq_zero_or_eq_one a with rfl | rfl <;> rfl
  | zext1 h1 hm =>
    cases hc
    rw [PNBasicType.memberWidth_eq h1, PNCastCase.exec, executorValue_holds hm, read_int1 ha]
    exact congrArg BitVec.toNat (ofInt_int1 a _)
  | trunc1 ht hm hw =>
    cases hc
    rw [PNBasicType.memberWidth_eq ht] at ha
    refine (executorValue_holds (m := .u8) rfl ret _).trans ?_
    rw [read_eq hm ha, CType.value_unsigned rfl]
    exact toNat_ofInt_lowest a

/-! ## CMP2 and VSELECT -/

/-- The comparison of C for an integer predicate, and whether it is one of a signed type. -/
def PNCmp2.cRel : PNCmp2 → CRel × Bool
  | .icmpNe => (.ne, false) | .icmpUgt => (.gt, false) | .icmpUge => (.ge, false) | .icmpUlt => (.lt, false)
  | .icmpUle => (.le, false) | .icmpSgt => (.gt, true) | .icmpSge => (.ge, true) | .icmpSlt => (.lt, true)
  | .icmpSle => (.le, true) | _ => (.eq, false)

theorem cmp2Case_eq {op : PNCmp2} {t : PNBasicType} (h : t ∈ op.types) (hi : t.isInteger = true) :
    t ≠ .int1 ∧ ∃ m, cmp2Case op t = some (op.cRel.1, m) ∧ m.type = ⟨t.width, op.cRel.2⟩ := by
  cases op <;> cases t <;> first
    | exact ⟨by decide, _, rfl, rfl⟩
    | exact absurd h (by decide)
    | exact absurd hi (by decide)

theorem llvmIcmp_eq {w : Nat} {a b : BitVec w} {op : PNCmp2} {r : Bool} (h : llvmIcmp a b op = some r) :
    op.cRel.1.eval (CType.value ⟨w, op.cRel.2⟩ a) (CType.value ⟨w, op.cRel.2⟩ b) = r := by
  cases op <;> cases h
  case icmpEq => simp [PNCmp2.cRel, CRel.eval, CType.value, BitVec.toNat_inj, beq_eq_decide]
  case icmpNe => simp [PNCmp2.cRel, CRel.eval, CType.value, BitVec.toNat_inj, bne, beq_eq_decide]
  all_goals simp [PNCmp2.cRel, CRel.eval, CType.value, BitVec.ult, BitVec.ule, BitVec.slt, BitVec.sle]

/-- **CMP2.** -/
theorem cmp2_result {op : PNCmp2} {t : PNBasicType} (h : t ∈ op.types) (hi : t.isInteger = true) {res id₀ id₁ : Nat}
    {a b : BitVec t.width} {r : Bool} (ha : Holds t (value id₀) a) (hb : Holds t (value id₁) b) (hr : llvmIcmp a b op = some r) :
    ∃ v, instructionResult float ret value (.cmp2 (some (.cmp2 op t)) res id₀ id₁) = .ok v ∧ Holds .int1 v (BitVec.ofBool r) := by
  obtain ⟨h1, m, hm, hty⟩ := cmp2Case_eq h hi
  unfold Holds at ha hb ⊢
  rw [PNBasicType.memberWidth_eq h1] at ha hb
  simp only [instructionResult, hm]
  refine ⟨_, rfl, ?_⟩
  refine (executorValue_holds (m := .u8) rfl ret _).trans ?_
  rw [read_eq hty ha, read_eq hty hb, llvmIcmp_eq hr]
  cases r <;> rfl

/-- **VSELECT.** -/
theorem vselect_result {t : PNBasicType} {res cond id₀ id₁ : Nat} {x : BitVec 1} {a b : BitVec t.width}
    (hx : Holds .int1 (value cond) x) (ha : Holds t (value id₀) a) (hb : Holds t (value id₁) b) :
    ∃ v, instructionResult float ret value (.vselect res cond id₀ id₁) = .ok v ∧ Holds t v (if x = 1#1 then a else b) := by
  refine ⟨_, rfl, ?_⟩
  rw [read_int1 hx]
  rcases BitVec.eq_zero_or_eq_one x with rfl | rfl
  · exact hb
  · exact ha

/-! ## Lowering and execution -/

section

variable (host : PNHost) (module : PNModule) (function : PNFunction) (float : PNOpcode → List Nat → Nat) (ret : Nat)
  (value : Nat → Nat)

/-- What executing `r` in place of an instruction has to give, for all operands for which LLVM defines the result. -/
def Implements (r : PNRuntimeInstruction) : PNInstruction → Prop
  | .binop _ id₀ id₁ code _ => ∀ op t a b c, PNBinOp.ofNat? code = some op → basicTypeOf host module function id₀ = .ok t →
      t.isInteger = true → Holds t (value id₀) a → Holds t (value id₁) b → llvmBinop a b op = some c →
      ((∃ v, instructionResult float ret value r = .ok v ∧ Holds t v c) ↔ MulFits op t a b)
  | .cast _ id code typeId => ∀ op t a c, PNCast.ofNat? code = some op → basicTypeOf host module function id = .ok t →
      Holds t (value id) a → llvmCast (module.type host typeId).basicType.width a op = some c →
      ∃ v, instructionResult float ret value r = .ok v ∧ Holds (module.type host typeId).basicType v c
  | .cmp2 _ id₀ id₁ code => ∀ op t a b c, PNCmp2.ofNat? code = some op → basicTypeOf host module function id₀ = .ok t →
      t.isInteger = true → Holds t (value id₀) a → Holds t (value id₁) b → llvmIcmp a b op = some c →
      ∃ v, instructionResult float ret value r = .ok v ∧ Holds .int1 v (BitVec.ofBool c)
  | .vselect _ cond id₀ id₁ => ∀ t (x : BitVec 1) a b, basicTypeOf host module function id₀ = .ok t →
      Holds .int1 (value cond) x → Holds t (value id₀) a → Holds t (value id₁) b →
      ∃ v, instructionResult float ret value r = .ok v ∧ Holds t v (if x = 1#1 then a else b)
  | _ => True

/-- **Lowering and execution implement LLVM's integers.** For every instruction that lowering accepts, whatever the bytes behind
the operands and behind the result are; MUL of 16 bits does exactly for the products below `2 ^ 31`. -/
theorem integer_semantics (bbOffsets : List Nat) (inst : PNInstruction) (r : PNRuntimeInstruction)
    (h : lowerInstruction host module function bbOffsets inst = .ok (some r)) :
    Implements host module function float ret value r inst := by
  cases inst with
  | binop res id₀ id₁ code flags =>
    intro op t a b c hop ht hi ha hb hc
    simp only [lowerInstruction, ht, ok_bind] at h
    obtain ⟨t1, -, h⟩ := bind_eq_ok.mp h
    split at h
    · cases h
    · obtain ⟨opcode, ho, h⟩ := bind_eq_ok.mp h
      cases h
      simp only [binopOpcode, hop] at ho
      obtain ⟨o, ho', heq⟩ := bind_eq_ok.mp ho
      cases heq
      obtain ⟨hmem, rfl⟩ := ifType_eq_ok ho'
      exact binop_result hmem hi ha hb hc
  | cast res id code typeId =>
    intro op t a c hop ht ha hc
    simp only [lowerInstruction, ht, ok_bind] at h
    obtain ⟨opcode, ho, h⟩ := bind_eq_ok.mp h
    cases h
    simp only [castOpcode, hop] at ho
    split at ho
    next hmem =>
      cases ho
      exact cast_result hmem ha hc
    · cases ho
  | cmp2 res id₀ id₁ code =>
    intro op t a b c hop ht hi ha hb hc
    simp only [lowerInstruction, ht, ok_bind] at h
    obtain ⟨t1, -, h⟩ := bind_eq_ok.mp h
    split at h
    · cases h
    · obtain ⟨opcode, ho, h⟩ := bind_eq_ok.mp h
      cases h
      simp only [cmp2Opcode, hop] at ho
      obtain ⟨o, ho', heq⟩ := bind_eq_ok.mp ho
      cases heq
      obtain ⟨hmem, rfl⟩ := ifType_eq_ok ho'
      exact cmp2_result hmem hi ha hb hc
  | vselect res cond id₀ id₁ =>
    intro t x a b ht hx ha hb
    simp only [lowerInstruction, ht, ok_bind] at h
    obtain ⟨t1, -, h⟩ := bind_eq_ok.mp h
    obtain ⟨t2, -, h⟩ := bind_eq_ok.mp h
    split at h
    · cases h
    · split at h
      · cases h
      · cases h
        exact vselect_result hx ha hb
  | _ => trivial

end

/-! ## A product of 16 bits -/

/-- A function with two arguments of type `i16`. -/
def demoProduct : PNFunction where
  name := none
  typeId := 0
  intrinsicId := .null
  numArgs := 2
  callingConvention := 0
  isProto := false
  linkage := 0
  constants := []
  bbs := []
  values := [⟨.functionArg 0, 0⟩, ⟨.functionArg 1, 0⟩]
  numInstructions := 0
  instructions := none

def demoShorts : PNModule := { pnModuleInit ⟨fun _ => 0, 2 ^ 16⟩ with types := [.integer 16 .int16] }

def demoMul : PNRuntimeInstruction := .binop (some (.binop .mul .int16)) 2 0 1

theorem integer_semantics_mul : ∃ v, instructionResult (fun _ _ => 0) 0 (fun _ => 181) demoMul = .ok v ∧
    Holds .int16 v 32761#16 :=
  (integer_semantics zeroHost demoShorts demoProduct (fun _ _ => 0) 0 (fun _ => 181) [] (.binop 2 0 1 2 0) demoMul rfl
    .mul .int16 181#16 181#16 32761#16 rfl rfl rfl rfl rfl (by decide)).mpr (by unfold MulFits; decide)

/-- `65535 * 65535` has no meaning in C where LLVM says 1. -/
theorem mul_int16_undefined : lowerInstruction zeroHost demoShorts demoProduct [] (.binop 2 0 1 2 0) = .ok (some demoMul) ∧
    Holds .int16 65535 65535#16 ∧ llvmBinop 65535#16 65535#16 .mul = some 1#16 ∧
    ¬∃ v, instructionResult (fun _ _ => 0) 0 (fun _ => 65535) demoMul = .ok v ∧ Holds .int16 v 1#16 := by
  refine ⟨rfl, rfl, by decide, ?_⟩
  rintro ⟨v, hv, -⟩
  have hundef : instructionResult (fun _ _ => 0) 0 (fun _ => 65535) demoMul = .error (.undefined "integer arithmetic") := rfl
  rw [hundef] at hv
  cases hv

end Pnacl
