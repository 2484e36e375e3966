import Pnacl.Lib.CInt

/-!
# Comparison of IEEE-754 numbers

A format has a sign, an exponent and a fraction field. Two numbers compare by their values, which are integers once they are scaled
by the smallest positive number; an infinity is above every finite number, and a NaN is unordered. The operators of C see this
comparison only (`CRel.evalFloat_eq`).
-/

namespace Pnacl.Lib

/-- A binary format: the widths of its exponent and fraction fields. -/
structure FloatFormat where
  expBits : Nat
  fracBits : Nat
deriving Repr, DecidableEq

/-- `float` and `double`. -/
def FloatFormat.single : FloatFormat := ⟨8, 23⟩
def FloatFormat.binary64 : FloatFormat := ⟨11, 52⟩

section Fields

variable (f : FloatFormat) (x : Nat)

def FloatFormat.width : Nat := 1 + f.expBits + f.fracBits

def FloatFormat.frac : Nat := x % 2 ^ f.fracBits

def FloatFormat.exp : Nat := x / 2 ^ f.fracBits % 2 ^ f.expBits

def FloatFormat.sign : Bool := x / 2 ^ (f.fracBits + f.expBits) % 2 = 1

def FloatFormat.isNaN : Bool := f.exp x = 2 ^ f.expBits - 1 ∧ f.frac x ≠ 0

/-- The absolute value, in units of the smallest positive number. An infinity is one binade above the finite numbers. -/
def FloatFormat.magnitude : Nat :=
  if f.exp x = 0 then f.frac x else (2 ^ f.fracBits + f.frac x) * 2 ^ (f.exp x - 1)

/-- The value, in units of the smallest positive number. -/
def FloatFormat.scaled : Int := if f.sign x then -f.magnitude x else f.magnitude x

end Fields

/-- The outcome of a comparison. -/
inductive FloatOrder where
  | equal | greater | less | unordered
deriving Repr, DecidableEq

/-- Compare the numbers with these bits. -/
def FloatFormat.compare (f : FloatFormat) (x y : Nat) : FloatOrder :=
  if f.isNaN x ∨ f.isNaN y then .unordered
  else if f.scaled x = f.scaled y then .equal
  else if f.scaled y < f.scaled x then .greater
  else .less

/-- The comparison operators of C: on unordered operands `!=` is true and every other one is false. -/
def CRel.evalFloat (f : FloatFormat) (x y : Nat) (op : CRel) : Bool :=
  if f.isNaN x ∨ f.isNaN y then op = .ne else op.eval (f.scaled x) (f.scaled y)

/-- The operators by the outcome of the comparison. -/
def CRel.evalOrder (o : FloatOrder) : CRel → Bool
  | .eq => o = .equal
  | .ne => o ≠ .equal
  | .gt => o = .greater
  | .ge => o = .greater ∨ o = .equal
  | .lt => o = .less
  | .le => o = .less ∨ o = .equal

/-- An operator depends on the outcome only. -/
theorem CRel.evalFloat_eq (f : FloatFormat) (x y : Nat) (op : CRel) : op.evalFloat f x y = op.evalOrder (f.compare x y) := by
  unfold evalFloat FloatFormat.compare
  split
  · cases op <;> rfl
  · rcases Int.lt_trichotomy (f.scaled x) (f.scaled y) with h | h | h
    · rw [if_neg (by omega), if_neg (by omega)]
      cases op <;> simp [CRel.evalOrder, CRel.eval] <;> omega
    · rw [if_pos h]
      cases op <;> simp [CRel.evalOrder, CRel.eval, h]
    · rw [if_neg (by omega), if_pos h]
      cases op <;> simp [CRel.evalOrder, CRel.eval] <;> omega

/-- Both zeros are equal, a NaN is not equal to itself. -/
example : FloatFormat.single.compare 0x80000000 0 = .equal ∧ FloatFormat.single.compare 0x7FC00000 0x7FC00000 = .unordered ∧
    FloatFormat.single.compare 0x3F800000 0x7F800000 = .less := by decide

end Pnacl.Lib
