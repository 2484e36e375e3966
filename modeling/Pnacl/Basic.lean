import Pnacl.Lib.Fallible

/-!
# How the program stops

`PN_CHECK(x)`, `PN_FATAL(...)` and `PN_UNREACHABLE()` print a message and call `exit(1)`; a failing `assert` aborts.
All of them end the run, so every function that can reach one returns in `Except Stop`. Where C leaves an operation
undefined and the code does not avoid it, the model stops with `Stop.undefined`; a loop of the model that used up its
fuel stops with `Stop.fuel`. Neither counts as an exit of the program.
-/

namespace Pnacl

open Lib

/-- Why a run does not return. -/
inductive Stop where
  /-- `PN_CHECK(cond)` failed. -/
  | check (cond : String)
  /-- `assert(cond)` failed. -/
  | assert (cond : String)
  /-- `PN_FATAL(format, args)`. -/
  | fatal (format : String) (args : List Int)
  /-- `PN_UNREACHABLE()`. -/
  | unreachable
  /-- An operation to which C gives no meaning. -/
  | undefined (what : String)
  /-- A loop of the model ran out of fuel. -/
  | fuel
deriving Repr, DecidableEq

/-- The program itself ends the run: it prints a message and exits, or an assertion aborts it. -/
def Stop.IsExit : Stop → Prop
  | .check _ | .assert _ | .fatal _ _ | .unreachable => True
  | .undefined _ | .fuel => False

/-- `PN_CHECK`. -/
def pnCheck (p : Prop) [Decidable p] (cond : String) : Except Stop Unit := require p (.check cond)

/-- `assert`. -/
def cAssert (p : Prop) [Decidable p] (cond : String) : Except Stop Unit := require p (.assert cond)

/-- `PN_FATAL`. -/
def pnFatal {α : Type} (format : String) (args : List Int) : Except Stop α := .error (.fatal format args)

section Guards

variable {α : Type} {p : Prop} [Decidable p] {c : String} {f : Unit → Except Stop α} {r : α}

theorem pnCheck_bind_eq_ok : (pnCheck p c >>= f) = .ok r ↔ p ∧ f () = .ok r := require_bind_eq_ok

theorem cAssert_bind_eq_ok : (cAssert p c >>= f) = .ok r ↔ p ∧ f () = .ok r := require_bind_eq_ok

theorem pnCheck_bind (h : p) : (pnCheck p c >>= f) = f () := require_bind h _ f

theorem cAssert_bind (h : p) : (cAssert p c >>= f) = f () := require_bind h _ f

theorem pnCheck_bind_neg (h : ¬p) : (pnCheck p c >>= f) = .error (.check c) := by
  rw [pnCheck, require_neg h]; rfl

theorem cAssert_bind_neg (h : ¬p) : (cAssert p c >>= f) = .error (.assert c) := by
  rw [cAssert, require_neg h]; rfl

end Guards

end Pnacl
