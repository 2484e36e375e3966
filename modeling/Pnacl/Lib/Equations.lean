import Mathlib.Logic.Function.Basic
import Mathlib.Data.Set.Basic

/-!
# Equations that are solved forwards

Each equation gives an unknown as the value of a partial operation on two unknowns. An unknown has a value when one can be
derived from the known values (`Derives`). If every unknown is the result of at most one equation, and no known one is, then
derivations agree with each other and with every solution, and a state that applies equations one by one, in whatever order,
holds only what can be derived; when no equation can be applied it holds all of it (`Sound.complete`).
-/

namespace Pnacl.Lib

/-- `result = op left right`. -/
structure Equation (V : Type*) where
  result : V
  left : V
  right : V

section Equations

variable {V T : Type*} {op : T → T → Option T} {known state : V → Option T} {eqs : Set (Equation V)} {v : V} {t : T}

/-- The value can be derived from the known values in finitely many steps. -/
inductive Derives (op : T → T → Option T) (known : V → Option T) (eqs : Set (Equation V)) : V → T → Prop
  | known {v : V} {t : T} (h : known v = some t) : Derives op known eqs v t
  | step {e : Equation V} {a b t : T} (he : e ∈ eqs) (hleft : Derives op known eqs e.left a)
      (hright : Derives op known eqs e.right b) (hop : op a b = some t) : Derives op known eqs e.result t

/-- No unknown is defined twice. -/
structure SeparateResults (known : V → Option T) (eqs : Set (Equation V)) : Prop where
  unknown : ∀ {e}, e ∈ eqs → known e.result = none
  unique : ∀ {e e'}, e ∈ eqs → e' ∈ eqs → e.result = e'.result → e = e'

/-- A solution has the known values and satisfies the equations. -/
structure Solves (op : T → T → Option T) (known : V → Option T) (eqs : Set (Equation V)) (state : V → Option T) : Prop where
  keeps : ∀ {v t}, known v = some t → state v = some t
  equation : ∀ {e}, e ∈ eqs → ∃ a b t, state e.left = some a ∧ state e.right = some b ∧ op a b = some t ∧ state e.result = some t

/-- Everything that has a value has a derivable one, and the known values are there. -/
structure Sound (op : T → T → Option T) (known : V → Option T) (eqs : Set (Equation V)) (state : V → Option T) : Prop where
  keeps : ∀ {v t}, known v = some t → state v = some t
  derives : ∀ {v t}, state v = some t → Derives op known eqs v t

/-- The value of a result is derived with its equation. -/
theorem Derives.result {e : Equation V} (h : Derives op known eqs e.result t) (hsep : SeparateResults known eqs) (he : e ∈ eqs) :
    ∃ a b, Derives op known eqs e.left a ∧ Derives op known eqs e.right b ∧ op a b = some t := by
  generalize hr : e.result = r at h
  cases h with
  | known h =>
    rw [← hr, hsep.unknown he] at h
    cases h
  | step he' hleft hright hop =>
    obtain rfl := hsep.unique he he' hr
    exact ⟨_, _, hleft, hright, hop⟩

/-- A solution agrees with every derivation. -/
theorem Derives.solves (h : Derives op known eqs v t) (hs : Solves op known eqs state) : state v = some t := by
  induction h with
  | known h => exact hs.keeps h
  | step he _ _ hop ihleft ihright =>
    obtain ⟨a, b, t, ha, hb, ht, hr⟩ := hs.equation he
    rw [ihleft] at ha
    rw [ihright] at hb
    cases ha
    cases hb
    rw [hr, ← ht, hop]

/-- Two derivations give the same value. -/
theorem Derives.unique (hsep : SeparateResults known eqs) (h : Derives op known eqs v t) :
    ∀ {t' : T}, Derives op known eqs v t' → t' = t := by
  induction h with
  | @known v t h =>
    intro t' h'
    cases h' with
    | known h' => exact Option.some.inj (h'.symm.trans h)
    | step he =>
      rw [hsep.unknown he] at h
      cases h
  | step he _ _ hop ihleft ihright =>
    intro t' h'
    obtain ⟨a, b, ha, hb, hop'⟩ := h'.result hsep he
    rw [ihleft ha, ihright hb, hop] at hop'
    exact (Option.some.inj hop').symm

/-- The known values are sound. -/
theorem Sound.start : Sound op known eqs known := ⟨id, .known⟩

/-- Applying an equation keeps a sound state sound. -/
theorem Sound.step [DecidableEq V] {e : Equation V} {a b : T} (h : Sound op known eqs state) (hsep : SeparateResults known eqs)
    (he : e ∈ eqs) (ha : state e.left = some a) (hb : state e.right = some b) (hop : op a b = some t) :
    Sound op known eqs (Function.update state e.result (some t)) := by
  constructor
  · intro v u hv
    have hne : v ≠ e.result := by
      rintro rfl
      rw [hsep.unknown he] at hv
      cases hv
    rw [Function.update_of_ne hne]
    exact h.keeps hv
  · intro v u hv
    by_cases hv' : v = e.result
    · subst hv'
      rw [Function.update_self] at hv
      cases hv
      exact .step he (h.derives ha) (h.derives hb) hop
    · rw [Function.update_of_ne hv'] at hv
      exact h.derives hv

/-- An equation that cannot be applied although its operands have values has a result without derivation. -/
theorem Sound.stuck {e : Equation V} {a b : T} (h : Sound op known eqs state) (hsep : SeparateResults known eqs) (he : e ∈ eqs)
    (ha : state e.left = some a) (hb : state e.right = some b) (hop : op a b = none) : ¬Derives op known eqs e.result t := by
  intro hd
  obtain ⟨a', b', ha', hb', hop'⟩ := hd.result hsep he
  rw [(h.derives ha).unique hsep ha', (h.derives hb).unique hsep hb', hop] at hop'
  cases hop'

/-- **When no equation is left to apply, a sound state holds all that can be derived.** -/
theorem Sound.complete (h : Sound op known eqs state)
    (hclosed : ∀ e ∈ eqs, ∀ a b t, state e.left = some a → state e.right = some b → op a b = some t → state e.result = some t)
    (hd : Derives op known eqs v t) : state v = some t := by
  induction hd with
  | known hv => exact h.keeps hv
  | step he _ _ hop ihleft ihright => exact hclosed _ he _ _ _ ihleft ihright hop

/-- Where every result has a value, what can be derived is there. -/
theorem Sound.value (h : Sound op known eqs state) (hsep : SeparateResults known eqs) (hall : ∀ e ∈ eqs, ∃ t, state e.result = some t)
    (hd : Derives op known eqs v t) : state v = some t := by
  cases hd with
  | known hv => exact h.keeps hv
  | step he hleft hright hop =>
    obtain ⟨u, hu⟩ := hall _ he
    rw [hu, Derives.unique hsep (.step he hleft hright hop) (h.derives hu)]

/-- **A sound state in which every result has a value is a solution.** -/
theorem Sound.solves (h : Sound op known eqs state) (hsep : SeparateResults known eqs)
    (hall : ∀ e ∈ eqs, ∃ t, state e.result = some t) : Solves op known eqs state := by
  refine ⟨h.keeps, ?_⟩
  intro e he
  obtain ⟨t, ht⟩ := hall e he
  obtain ⟨a, b, ha, hb, hop⟩ := (h.derives ht).result hsep he
  exact ⟨a, b, t, h.value hsep hall ha, h.value hsep hall hb, hop, ht⟩

/-- **Two such states are the same**, in whatever order the equations were applied. -/
theorem Sound.unique {state' : V → Option T} (h : Sound op known eqs state) (h' : Sound op known eqs state')
    (hsep : SeparateResults known eqs) (hall : ∀ e ∈ eqs, ∃ t, state e.result = some t)
    (hall' : ∀ e ∈ eqs, ∃ t, state' e.result = some t) : state' = state := by
  funext v
  apply Option.ext
  intro t
  constructor
  · intro hv
    exact h.value hsep hall (h'.derives hv)
  · intro hv
    exact h'.value hsep hall' (h.derives hv)

/-- The equation with its operands in the other order. -/
def Equation.swap (e : Equation V) : Equation V := ⟨e.result, e.right, e.left⟩

/-- What can be derived does not depend on the order of operands, up to a relation that the operation respects in both orders. -/
theorem Derives.reorient {R : T → T → Prop} {eqs' : Set (Equation V)} (hknown : ∀ {v t}, known v = some t → R t t)
    (heqs : ∀ e ∈ eqs, e ∈ eqs' ∨ e.swap ∈ eqs')
    (hop : ∀ {a b t a' b'}, op a b = some t → R a a' → R b b' →
      (∃ t', op a' b' = some t' ∧ R t t') ∧ ∃ t', op b' a' = some t' ∧ R t t')
    (h : Derives op known eqs v t) : ∃ t', Derives op known eqs' v t' ∧ R t t' := by
  induction h with
  | known h => exact ⟨_, .known h, hknown h⟩
  | step he _ _ hab ihleft ihright =>
    obtain ⟨a', ha', hra⟩ := ihleft
    obtain ⟨b', hb', hrb⟩ := ihright
    obtain ⟨⟨t', hab', hrt⟩, u', hba', hru⟩ := hop hab hra hrb
    rcases heqs _ he with he' | he'
    · exact ⟨t', .step he' ha' hb' hab', hrt⟩
    · exact ⟨u', .step (e := Equation.swap _) he' hb' ha' hba', hru⟩

end Equations

end Pnacl.Lib
