import Pnacl.Lib.Fallible

/-!
# Two fallible computations side by side

`Agree R` relates two computations that stop for the same reason or return results that `R` relates. The rules take both apart
one statement at a time: a step that both have in common needs no proof (`Agree.same`), and a step that returns related results
goes on from these (`Agree.bind`).
-/

namespace Pnacl.Lib

variable {ε α β γ δ : Type}

/-- Two computations that stop for the same reason or return related results. -/
inductive Agree (R : α → β → Prop) : Except ε α → Except ε β → Prop where
  | ok {a : α} {b : β} (h : R a b) : Agree R (.ok a) (.ok b)
  | error (e : ε) : Agree R (.error e) (.error e)

variable {R : α → β → Prop} {S : γ → δ → Prop}

theorem Agree.bind {x : Except ε α} {y : Except ε β} {f : α → Except ε γ} {g : β → Except ε δ} (h : Agree R x y)
    (hf : ∀ a b, x = .ok a → R a b → Agree S (f a) (g b)) : Agree S (x >>= f) (y >>= g) := by
  cases h with
  | ok h => exact hf _ _ rfl h
  | error e => exact .error e

/-- A step that is the same on both sides. -/
theorem Agree.same {x : Except ε α} {f : α → Except ε γ} {g : α → Except ε δ}
    (hf : ∀ a, x = .ok a → Agree S (f a) (g a)) : Agree S (x >>= f) (x >>= g) := by
  cases x with
  | ok a => exact hf a rfl
  | error e => exact .error e

theorem Agree.ok_left {a : α} {y : Except ε β} (h : Agree R (.ok a) y) : ∃ b, y = .ok b ∧ R a b := by
  cases h with
  | ok h => exact ⟨_, rfl, h⟩

theorem Agree.ok_right {x : Except ε α} {b : β} (h : Agree R x (.ok b)) : ∃ a, x = .ok a ∧ R a b := by
  cases h with
  | ok h => exact ⟨_, rfl, h⟩

theorem Agree.map {x : Except ε α} {g : α → β} (h : ∀ a, x = .ok a → R a (g a)) : Agree R x (x.map g) := by
  cases x with
  | ok a => exact .ok (h a rfl)
  | error e => exact .error e

theorem map_bind {x : Except ε α} {f : α → Except ε β} {g : β → γ} : (x >>= f).map g = x >>= fun a => (f a).map g := by
  cases x <;> rfl

theorem bind_map {x : Except ε α} {g : α → β} {f : β → Except ε γ} : (x.map g >>= f) = x >>= fun a => f (g a) := by
  cases x <;> rfl

end Pnacl.Lib
