import Mathlib.Tactic.Common

/-!
# Fallible computations

`Except ε` is the monad of code that returns a value or stops with a reason. The rules here take a computation that
returned apart (`bind_eq_ok`, `require_eq_ok`), so that a proof about a `do` block peels one statement at a time and
never unfolds the monad.
-/

namespace Pnacl.Lib

variable {ε α β : Type}

/-- Go on if `p` holds, else stop with `e`. -/
def require (p : Prop) [Decidable p] (e : ε) : Except ε Unit := if p then .ok () else .error e

theorem require_eq_ok {p : Prop} [Decidable p] {e : ε} {u : Unit} : require p e = .ok u ↔ p := by
  unfold require
  split <;> simp_all

theorem require_pos {p : Prop} [Decidable p] (h : p) (e : ε) : require p e = .ok () := if_pos h

theorem require_neg {p : Prop} [Decidable p] (h : ¬p) (e : ε) : require p e = .error e := if_neg h

@[simp] theorem ok_bind (a : α) (f : α → Except ε β) : ((Except.ok a : Except ε α) >>= f) = f a := rfl

@[simp] theorem error_bind (e : ε) (f : α → Except ε β) : ((Except.error e : Except ε α) >>= f) = .error e := rfl

@[simp] theorem pure_eq_ok (a : α) : (pure a : Except ε α) = .ok a := rfl

/-- A sequence returned iff its first part returned and the rest returned on that result. -/
theorem bind_eq_ok {x : Except ε α} {f : α → Except ε β} {r : β} :
    (x >>= f) = .ok r ↔ ∃ a, x = .ok a ∧ f a = .ok r := by
  cases x <;> simp

/-- Guards in front of a computation are peeled off one by one. -/
theorem require_bind_eq_ok {p : Prop} [Decidable p] {e : ε} {f : Unit → Except ε β} {r : β} :
    (require p e >>= f) = .ok r ↔ p ∧ f () = .ok r := by
  rw [bind_eq_ok]
  exact ⟨fun ⟨_, hp, hf⟩ => ⟨require_eq_ok.mp hp, hf⟩, fun ⟨hp, hf⟩ => ⟨(), require_pos hp e, hf⟩⟩

theorem require_bind {p : Prop} [Decidable p] (h : p) (e : ε) (f : Unit → Except ε β) :
    (require p e >>= f) = f () := by rw [require_pos h]; rfl

/-- What a computation returned, from an observation of its result. -/
theorem eq_ok_of_toOption {x : Except ε α} {g : α → β} {b : β} (h : x.toOption.map g = some b) :
    ∃ a, x = .ok a ∧ g a = b := by
  cases x with
  | error e => cases h
  | ok a => exact ⟨a, rfl, Option.some.inj h⟩

/-! ## Reasons that a computation avoids -/

section Avoids

variable {bad : ε → Prop} {x : Except ε α} {f : α → Except ε β} {Q : α → Prop} {R : β → Prop}

/-- The computation does not stop for a bad reason, and if it returns, its result is as `Q` asks. -/
def Avoids (bad : ε → Prop) (x : Except ε α) (Q : α → Prop) : Prop := (∀ a, x = .ok a → Q a) ∧ ∀ e, x = .error e → ¬bad e

theorem Avoids.ok {a : α} (h : Q a) : Avoids bad (.ok a) Q := ⟨fun _ ha => Except.ok.inj ha ▸ h, nofun⟩

theorem Avoids.error {e : ε} (h : ¬bad e) : Avoids bad (.error e) Q := ⟨nofun, fun _ he => Except.error.inj he ▸ h⟩

theorem Avoids.mono {Q' : α → Prop} (h : Avoids bad x Q) (hQ : ∀ a, Q a → Q' a) : Avoids bad x Q' :=
  ⟨fun a ha => hQ a (h.1 a ha), h.2⟩

theorem Avoids.bind (hx : Avoids bad x Q) (hf : ∀ a, Q a → Avoids bad (f a) R) : Avoids bad (x >>= f) R := by
  cases hx' : x with
  | ok a => exact hf a (hx.1 a hx')
  | error e => exact .error (hx.2 e hx')

/-- A step of which only the result counts. -/
theorem Avoids.bind_ok (hx : ∀ e, x = .error e → ¬bad e) (hf : ∀ a, x = .ok a → Avoids bad (f a) R) :
    Avoids bad (x >>= f) R :=
  Avoids.bind (Q := fun a => x = .ok a) ⟨fun _ ha => ha, hx⟩ hf

end Avoids

end Pnacl.Lib
