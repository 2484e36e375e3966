import Pnacl.Lib.Bytes
import Mathlib.Tactic.Ring

/-!
# Words in memory

Arrays of words of `n` bytes, little-endian, one after another in byte memory (`WordsAt`): what a copy, a store and a concatenation
do to them. `putBytes` copies bytes from elsewhere into memory.
-/

namespace Pnacl.Lib

variable {m m' : Nat → UInt8} {n a a' v : Nat} {vs ws : List Nat}

/-- A load of bytes that were moved. -/
theorem loadBytes_move : ∀ {n a a' : Nat}, (∀ i, i < n → m' (a' + i) = m (a + i)) → loadBytes m' a' n = loadBytes m a n
  | 0, _, _, _ => rfl
  | n + 1, a, a', h => by
    have hd : m' a' = m a := h 0 (by omega)
    have tl : loadBytes m' (a' + 1) n = loadBytes m (a + 1) n := by
      refine loadBytes_move fun i hi => ?_
      rw [Nat.add_assoc, Nat.add_assoc, Nat.add_comm 1 i]
      exact h (i + 1) (by omega)
    rw [loadBytes, loadBytes, hd, tl]

/-- The words lie one after another from `a` on. -/
def WordsAt (m : Nat → UInt8) (n : Nat) : Nat → List Nat → Prop
  | _, [] => True
  | a, v :: vs => loadBytes m a n = v ∧ WordsAt m n (a + n) vs

theorem WordsAt.move (h : WordsAt m n a vs) (hm : ∀ i, i < n * vs.length → m' (a' + i) = m (a + i)) : WordsAt m' n a' vs := by
  induction vs generalizing a a' with
  | nil => trivial
  | cons v vs ih =>
    rw [List.length_cons, Nat.mul_add, Nat.mul_one] at hm
    refine ⟨(loadBytes_move fun i hi => hm i (by omega)).trans h.1, ih h.2 fun i hi => ?_⟩
    rw [Nat.add_assoc, Nat.add_assoc]
    exact hm (n + i) (by omega)

theorem WordsAt.congr (h : WordsAt m n a vs) (hm : SameBytes m m' a (a + n * vs.length)) : WordsAt m' n a vs :=
  h.move fun i hi => hm (a + i) (by omega) (by omega)

theorem wordsAt_append : WordsAt m n a (vs ++ ws) ↔ WordsAt m n a vs ∧ WordsAt m n (a + n * vs.length) ws := by
  induction vs generalizing a with
  | nil => simp [WordsAt]
  | cons v vs ih =>
    have he : a + n + n * vs.length = a + n * (vs.length + 1) := by ring
    simp only [List.cons_append, WordsAt, ih, List.length_cons, he, and_assoc]

theorem WordsAt.get (h : WordsAt m n a vs) {i : Nat} (hi : vs[i]? = some v) : loadBytes m (a + n * i) n = v := by
  induction vs generalizing a i with
  | nil => simp at hi
  | cons w vs ih =>
    cases i with
    | zero =>
      simp only [List.getElem?_cons_zero, Option.some.injEq] at hi
      simpa [← hi] using h.1
    | succ i =>
      have he : a + n * (i + 1) = a + n + n * i := by ring
      rw [he]
      exact ih h.2 (by simpa using hi)

/-- A change of one word. -/
theorem WordsAt.update (h : WordsAt m n a vs) {i : Nat} (hi : i < vs.length)
    (hm : ∀ j, j < a + n * i ∨ a + n * i + n ≤ j → m' j = m j) : WordsAt m' n a (vs.set i (loadBytes m' (a + n * i) n)) := by
  induction vs generalizing a i with
  | nil => simp at hi
  | cons w vs ih =>
    cases i with
    | zero => exact ⟨rfl, h.2.congr fun j hj _ => hm j (.inr (by omega))⟩
    | succ i =>
      have he : a + n * (i + 1) = a + n + n * i := by ring
      rw [he] at hm ⊢
      refine ⟨?_, ih h.2 (by simpa using hi) hm⟩
      rw [← h.1]
      exact loadBytes_congr fun j _ hj => hm j (.inl (by omega))

/-- The words that are there. -/
def loadWords (m : Nat → UInt8) (n a : Nat) : Nat → List Nat
  | 0 => []
  | k + 1 => loadBytes m a n :: loadWords m n (a + n) k

theorem loadWords_length (m : Nat → UInt8) (n a k : Nat) : (loadWords m n a k).length = k := by
  induction k generalizing a with
  | zero => rfl
  | succ k ih => simp [loadWords, ih]

theorem wordsAt_loadWords (m : Nat → UInt8) (n a k : Nat) : WordsAt m n a (loadWords m n a k) := by
  induction k generalizing a with
  | zero => trivial
  | succ k ih => exact ⟨rfl, ih _⟩

/-- Storing a word behind words. -/
theorem WordsAt.snoc (h : WordsAt m n a vs) (hv : v < 2 ^ (8 * n)) :
    WordsAt (storeBytes m (a + n * vs.length) n v) n a (vs ++ [v]) := by
  refine wordsAt_append.mpr ⟨h.congr fun i _ hi => storeBytes_outside (.inl hi), ?_, trivial⟩
  rw [loadBytes_storeBytes, Nat.mod_eq_of_lt hv]

/-- Bytes from elsewhere are copied to `a`. -/
def putBytes (m : Nat → UInt8) (a : Nat) (bs : List UInt8) : Nat → UInt8 :=
  fun i => if a ≤ i ∧ i < a + bs.length then bs.getD (i - a) 0 else m i

theorem putBytes_outside {bs : List UInt8} {i : Nat} (h : i < a ∨ a + bs.length ≤ i) : putBytes m a bs i = m i :=
  if_neg (by omega)

theorem putBytes_inside {bs : List UInt8} {i : Nat} {b : UInt8} (h : bs[i]? = some b) : putBytes m a bs (a + i) = b := by
  have hi := (List.getElem?_eq_some_iff.mp h).1
  rw [putBytes, if_pos (by omega), Nat.add_sub_cancel_left, List.getD_eq_getElem?_getD, h, Option.getD_some]

end Pnacl.Lib
