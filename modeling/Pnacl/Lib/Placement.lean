import Mathlib.Order.Bounds.Basic
import Mathlib.Algebra.Order.Group.Nat

/-!
# Aligned placement

Items laid out one behind the other, each at the first multiple of its alignment that is not below the end of the one
before. `place` gives the items with their offsets and `placeEnd` the end of the last one. The ranges that they take are in
order (`place_pairwise`).
-/

namespace Pnacl.Lib

/-- The first multiple of `a` that is not below `x`. -/
def roundUp (x a : Nat) : Nat := (x + a - 1) / a * a

theorem le_roundUp {x a : Nat} (ha : 0 < a) : x ≤ roundUp x a := by
  have hdiv := Nat.div_add_mod (x + a - 1) a
  have hmod := Nat.mod_lt (x + a - 1) ha
  rw [Nat.mul_comm] at hdiv
  rw [roundUp]
  omega

theorem roundUp_isLeast {x a : Nat} (ha : 0 < a) : IsLeast {y | a ∣ y ∧ x ≤ y} (roundUp x a) := by
  refine ⟨⟨Nat.dvd_mul_left a _, le_roundUp ha⟩, ?_⟩
  rintro y ⟨⟨c, rfl⟩, hle⟩
  rw [roundUp, Nat.mul_comm a c]
  have hlt : (x + a - 1) / a < c + 1 := by
    rw [Nat.div_lt_iff_lt_mul ha, Nat.add_mul, Nat.one_mul, Nat.mul_comm c a]
    omega
  exact Nat.mul_le_mul_right a (Nat.le_of_lt_succ hlt)

@[simp] theorem roundUp_one (x : Nat) : roundUp x 1 = x := by simp [roundUp]

section Placement

variable {α : Type} (align size : α → Nat)

/-- The items with their offsets. -/
def place : Nat → List α → List (Nat × α)
  | _, [] => []
  | x, i :: is => (roundUp x (align i), i) :: place (roundUp x (align i) + size i) is

/-- Where the last item ends. -/
def placeEnd : Nat → List α → Nat
  | x, [] => x
  | x, i :: is => placeEnd (roundUp x (align i) + size i) is

variable {align size}

theorem placeEnd_append (x : Nat) (is js : List α) :
    placeEnd align size x (is ++ js) = placeEnd align size (placeEnd align size x is) js := by
  induction is generalizing x with
  | nil => rfl
  | cons i is ih => exact ih _

theorem place_append (x : Nat) (is js : List α) :
    place align size x (is ++ js) = place align size x is ++ place align size (placeEnd align size x is) js := by
  induction is generalizing x with
  | nil => rfl
  | cons i is ih => exact congrArg (_ :: ·) (ih _)

/-- Item `k` begins where the ones before it end, rounded up. -/
theorem place_getElem? (x : Nat) (is : List α) (k : Nat) :
    (place align size x is)[k]? = is[k]?.map fun i => (roundUp (placeEnd align size x (is.take k)) (align i), i) := by
  induction is generalizing x k with
  | nil => simp [place]
  | cons i is ih =>
    cases k with
    | zero => rfl
    | succ k => exact ih _ k

variable (hpos : ∀ i, 0 < align i)
include hpos

theorem le_placeEnd (x : Nat) (is : List α) : x ≤ placeEnd align size x is := by
  induction is generalizing x with
  | nil => exact le_rfl
  | cons i is ih => exact (le_roundUp (hpos i)).trans ((Nat.le_add_right _ _).trans (ih _))

theorem placeEnd_le_append (x : Nat) (is js : List α) :
    placeEnd align size x is ≤ placeEnd align size x (is ++ js) := by
  rw [placeEnd_append]
  exact le_placeEnd hpos _ js

/-- Every item lies between the beginning and the end. -/
theorem mem_place {x o : Nat} {is : List α} {i : α} (h : (o, i) ∈ place align size x is) :
    x ≤ o ∧ o + size i ≤ placeEnd align size x is := by
  induction is generalizing x with
  | nil => cases h
  | cons j is ih =>
    have hle := le_roundUp (x := x) (hpos j)
    rcases List.mem_cons.mp h with heq | h
    · obtain ⟨rfl, rfl⟩ := Prod.mk.inj heq
      exact ⟨hle, le_placeEnd hpos _ is⟩
    · obtain ⟨h₁, h₂⟩ := ih h
      exact ⟨by omega, h₂⟩

/-- **The ranges are in order**, so none of them overlap. -/
theorem place_pairwise (x : Nat) (is : List α) :
    (place align size x is).Pairwise fun p q => p.1 + size p.2 ≤ q.1 := by
  induction is generalizing x with
  | nil => exact .nil
  | cons i is ih => exact .cons (fun q hq => (mem_place hpos hq).1) (ih _)

omit hpos

end Placement

end Pnacl.Lib
