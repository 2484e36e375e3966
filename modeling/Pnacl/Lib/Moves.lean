import Mathlib.Logic.Function.Basic
import Mathlib.Data.List.Nodup
import Mathlib.Tactic.Common

/-!
# Simultaneous moves

A list of moves between locations can be done all at once, with every source read before the first write, or one after
the other, in place. For different destinations the two agree in every environment iff no move reads a location that an
earlier move has changed (`Independent`): `movesInOrder_eq` is one direction, `exists_stale_of_not_independent` says how
the in-place order goes wrong otherwise.
-/

namespace Pnacl.Lib

/-- `dest := source`. -/
structure Move (ι : Type) where
  dest : ι
  source : ι
deriving Repr, DecidableEq

section

variable {ι V : Type} [DecidableEq ι]

/-- Write the sources, read from `old`, into `env`. -/
def movesFrom (old env : ι → V) : List (Move ι) → ι → V
  | [] => env
  | m :: ms => movesFrom old (Function.update env m.dest (old m.source)) ms

/-- All moves at once. -/
def movesAtOnce (env : ι → V) (ms : List (Move ι)) : ι → V := movesFrom env env ms

/-- One move after the other, in place. -/
def movesInOrder (env : ι → V) : List (Move ι) → ι → V
  | [] => env
  | m :: ms => movesInOrder (Function.update env m.dest (env m.source)) ms

/-- No move reads what an earlier one has changed. -/
def Independent (ms : List (Move ι)) : Prop := ms.Pairwise fun k m => m.source = k.dest → k.source = k.dest

instance (ms : List (Move ι)) : Decidable (Independent ms) := inferInstanceAs (Decidable (List.Pairwise _ _))

variable {old env : ι → V} {ms : List (Move ι)} {i : ι}

theorem movesFrom_of_notMem : ∀ {ms : List (Move ι)} {env : ι → V}, i ∉ ms.map Move.dest → movesFrom old env ms i = env i
  | [], _, _ => rfl
  | m :: ms, env, h => by
    rw [List.map_cons, List.mem_cons, not_or] at h
    rw [movesFrom, movesFrom_of_notMem h.2, Function.update_of_ne h.1]

theorem movesFrom_of_mem : ∀ {ms : List (Move ι)} {env : ι → V}, (ms.map Move.dest).Nodup → ∀ m ∈ ms,
    movesFrom old env ms m.dest = old m.source
  | [], _, _, _, hm => by cases hm
  | k :: ms, env, hn, m, hm => by
    rw [List.map_cons, List.nodup_cons] at hn
    rw [movesFrom]
    rcases List.mem_cons.mp hm with rfl | hm
    · rw [movesFrom_of_notMem hn.1, Function.update_self]
    · exact movesFrom_of_mem hn.2 m hm

/-- A move at once gives the destination the old value of the source. -/
theorem movesAtOnce_of_mem (hn : (ms.map Move.dest).Nodup) {m : Move ι} (hm : m ∈ ms) :
    movesAtOnce env ms m.dest = env m.source :=
  movesFrom_of_mem hn m hm

theorem movesAtOnce_of_notMem (h : i ∉ ms.map Move.dest) : movesAtOnce env ms i = env i := movesFrom_of_notMem h

theorem movesInOrder_of_notMem : ∀ {ms : List (Move ι)} {env : ι → V}, i ∉ ms.map Move.dest →
    movesInOrder env ms i = env i
  | [], _, _ => rfl
  | m :: ms, env, h => by
    rw [List.map_cons, List.mem_cons, not_or] at h
    rw [movesInOrder, movesInOrder_of_notMem h.2, Function.update_of_ne h.1]

/-- A source that no move writes is read unchanged. -/
theorem movesInOrder_of_source_notMem : ∀ {ms : List (Move ι)} {env : ι → V}, (ms.map Move.dest).Nodup →
    ∀ m ∈ ms, m.source ∉ ms.map Move.dest → movesInOrder env ms m.dest = env m.source
  | [], _, _, _, hm, _ => by cases hm
  | k :: ms, env, hn, m, hm, hs => by
    rw [List.map_cons, List.nodup_cons] at hn
    rw [List.map_cons, List.mem_cons, not_or] at hs
    rw [movesInOrder]
    rcases List.mem_cons.mp hm with rfl | hm
    · rw [movesInOrder_of_notMem hn.1, Function.update_self]
    · rw [movesInOrder_of_source_notMem hn.2 m hm hs.2, Function.update_of_ne hs.1]

/-- Independent moves may be done in place: the sources that are left to read still have their old values. -/
theorem movesInOrder_eq_movesFrom : ∀ {ms : List (Move ι)} {env : ι → V}, Independent ms →
    (∀ m ∈ ms, env m.source = old m.source) → movesInOrder env ms = movesFrom old env ms
  | [], _, _, _ => rfl
  | k :: ms, env, hi, hold => by
    obtain ⟨hk, hi⟩ := List.pairwise_cons.mp hi
    rw [movesInOrder, movesFrom, hold k (List.mem_cons_self ..)]
    refine movesInOrder_eq_movesFrom hi ?_
    intro m hm
    by_cases heq : m.source = k.dest
    · -- `k` is a move of a location to itself
      rw [heq, Function.update_self, hk m hm heq]
    · rw [Function.update_of_ne heq, hold m (List.mem_cons_of_mem _ hm)]

theorem movesInOrder_eq (hi : Independent ms) : movesInOrder env ms = movesAtOnce env ms :=
  movesInOrder_eq_movesFrom hi fun _ _ => rfl

/-- Without independence some move `m` reads what `k` has changed: `m` gets the wrong value wherever source and
destination of `k` differ. -/
theorem exists_stale_of_not_independent : ∀ {ms : List (Move ι)}, (ms.map Move.dest).Nodup → ¬Independent ms →
    ∃ k ∈ ms, ∃ m ∈ ms, k.source ≠ k.dest ∧ m.source = k.dest ∧
      ∀ env : ι → V, env k.source ≠ env k.dest → movesInOrder env ms m.dest ≠ env m.source
  | [], _, hi => absurd List.Pairwise.nil hi
  | a :: ms, hn, hi => by
    rw [List.map_cons, List.nodup_cons] at hn
    by_cases ha : ∃ m ∈ ms, m.source = a.dest ∧ a.source ≠ a.dest
    · obtain ⟨m, hm, heq, hne⟩ := ha
      refine ⟨a, List.mem_cons_self .., m, List.mem_cons_of_mem _ hm, hne, heq, ?_⟩
      intro env henv
      rw [movesInOrder, movesInOrder_of_source_notMem hn.2 m hm (heq ▸ hn.1), heq, Function.update_self]
      exact henv
    · -- nobody reads what `a` changes
      have hpair : ∀ m ∈ ms, m.source = a.dest → a.source = a.dest := by
        intro m hm heq
        by_contra hne
        exact ha ⟨m, hm, heq, hne⟩
      have hi' : ¬Independent ms := fun h => hi (List.pairwise_cons.mpr ⟨hpair, h⟩)
      obtain ⟨k, hk, m, hm, hne, heq, hwrong⟩ := exists_stale_of_not_independent hn.2 hi'
      refine ⟨k, List.mem_cons_of_mem _ hk, m, List.mem_cons_of_mem _ hm, hne, heq, ?_⟩
      intro env henv
      have hsame : ∀ x ∈ ms, Function.update env a.dest (env a.source) x.source = env x.source := by
        intro x hx
        by_cases hxa : x.source = a.dest
        · rw [hxa, Function.update_self, hpair x hx hxa]
        · rw [Function.update_of_ne hxa]
      have hdest : Function.update env a.dest (env a.source) k.dest = env k.dest := by
        apply Function.update_of_ne
        intro h
        exact hn.1 (h ▸ List.mem_map_of_mem hk)
      rw [movesInOrder, ← hsame m hm]
      apply hwrong
      rw [hsame k hk, hdest]
      exact henv

end

end Pnacl.Lib
