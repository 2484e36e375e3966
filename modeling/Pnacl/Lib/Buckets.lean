import Mathlib.Data.List.Basic
import Pnacl.Lib.Fallible

/-!
# Counting and filling buckets

A list of events, each with the number of a bucket, is sorted into buckets in two passes: the first counts the events of
every bucket, the second appends each event to its bucket, which may not grow beyond its count. Both passes return on events
whose buckets exist, and each bucket gets its events in their order (`countInto_eq`, `fillInto_eq`, `transpose_eq`).
-/

namespace Pnacl.Lib

section Buckets

variable {ε β : Type} (bad full : ε)

/-- Count the events of every bucket. -/
def countInto (n : Nat) : List (Nat × β) → List Nat → Except ε (List Nat)
  | [], counts => .ok counts
  | (p, _) :: events, counts => do
    require (p < n) bad
    countInto n events (counts.modify p (· + 1))

/-- Append each event to its bucket. -/
def fillInto (counts : List Nat) : List (Nat × β) → List (List β) → Except ε (List (List β))
  | [], buckets => .ok buckets
  | (p, b) :: events, buckets =>
    match buckets[p]? with
    | none => .error bad
    | some bucket =>
      if bucket.length < counts.getD p 0 then fillInto counts events (buckets.set p (bucket ++ [b]))
      else .error full

/-- The events of bucket `p`. -/
def bucket (events : List (Nat × β)) (p : Nat) : List β := (events.filter (·.1 = p)).map Prod.snd

variable {bad full} {n : Nat} {events : List (Nat × β)} {p q : Nat} {b : β}

@[simp] theorem bucket_nil : bucket ([] : List (Nat × β)) p = [] := rfl

theorem bucket_cons_self : bucket ((p, b) :: events) p = b :: bucket events p := by
  simp [bucket]

theorem bucket_cons_of_ne (h : q ≠ p) : bucket ((q, b) :: events) p = bucket events p := by
  simp [bucket, h]

theorem countInto_eq {counts : List Nat} (h : ∀ e ∈ events, e.1 < n) :
    countInto bad n events counts = .ok (counts.mapIdx fun p c => c + (bucket events p).length) := by
  induction events generalizing counts with
  | nil => exact congrArg _ (List.ext_getElem? fun p => by simp)
  | cons e events ih =>
    obtain ⟨q, b⟩ := e
    obtain ⟨hq, hevents⟩ := List.forall_mem_cons.mp h
    rw [countInto, require_bind hq, ih hevents]
    congr 1
    apply List.ext_getElem?
    intro p
    rw [List.getElem?_mapIdx, List.getElem?_mapIdx, List.getElem?_modify]
    by_cases hqp : q = p
    · subst hqp
      rw [bucket_cons_self]
      cases counts[q]? with
      | none => rfl
      | some c => simp [Nat.add_assoc, Nat.add_comm]
    · simp [hqp, bucket_cons_of_ne hqp]

/-- Each bucket gets its events, if they fit. -/
theorem fillInto_eq {counts : List Nat} {buckets : List (List β)} (h : ∀ e ∈ events, e.1 < buckets.length)
    (hfit : ∀ p bs, buckets[p]? = some bs → bs.length + (bucket events p).length ≤ counts.getD p 0) :
    fillInto bad full counts events buckets = .ok (buckets.mapIdx fun p bs => bs ++ bucket events p) := by
  induction events generalizing buckets with
  | nil => exact congrArg _ (List.ext_getElem? fun p => by simp)
  | cons e events ih =>
    obtain ⟨q, b⟩ := e
    obtain ⟨hq, hevents⟩ := List.forall_mem_cons.mp h
    dsimp only at hq
    have hget := List.getElem?_eq_getElem hq
    have hroom := hfit q _ hget
    rw [bucket_cons_self, List.length_cons] at hroom
    rw [fillInto, hget]
    dsimp only
    rw [if_pos (by omega), ih (fun e he => by simpa using hevents e he)]
    · congr 1
      apply List.ext_getElem?
      intro p
      rw [List.getElem?_mapIdx, List.getElem?_mapIdx, List.getElem?_set]
      by_cases hqp : q = p
      · subst hqp
        rw [if_pos rfl, if_pos hq, hget, bucket_cons_self]
        simp
      · rw [if_neg hqp, bucket_cons_of_ne hqp]
    · intro p bs hbs
      rw [List.getElem?_set] at hbs
      by_cases hqp : q = p
      · subst hqp
        rw [if_pos rfl, if_pos hq, Option.some.injEq] at hbs
        subst hbs
        rw [List.length_append, List.length_singleton]
        omega
      · rw [if_neg hqp] at hbs
        have := hfit p bs hbs
        rwa [bucket_cons_of_ne hqp] at this

/-- **Counting and filling**: what has been counted has room, and every bucket is filled with its events. -/
theorem transpose_eq (bad bad' full : ε) {counts : List Nat} (h : ∀ e ∈ events, e.1 < counts.length) :
    ∃ counts', countInto bad counts.length events counts = .ok counts' ∧
      fillInto bad' full counts' events (counts.map fun _ => []) = .ok (counts.mapIdx fun p _ => bucket events p) := by
  refine ⟨_, countInto_eq h, ?_⟩
  rw [fillInto_eq (by simpa using h)]
  · refine congrArg _ (List.ext_getElem? fun p => ?_)
    rw [List.getElem?_mapIdx, List.getElem?_mapIdx, List.getElem?_map, Option.map_map]
    rfl
  · intro p bs hbs
    rw [List.getElem?_map, Option.map_eq_some_iff] at hbs
    obtain ⟨c, hc, rfl⟩ := hbs
    simp [List.getD_eq_getElem?_getD, hc]

/-- The events of one list after the other. -/
theorem bucket_flatMap {α : Type} (l : List α) (f : α → List (Nat × β)) (p : Nat) :
    bucket (l.flatMap f) p = l.flatMap fun a => bucket (f a) p := by
  rw [bucket, List.filter_flatMap, List.map_flatMap]
  rfl

end Buckets

end Pnacl.Lib
