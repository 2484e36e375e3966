import Mathlib.Data.List.Nodup
import Mathlib.Order.Basic
import Mathlib.Tactic.Ring

/-!
# Array heaps whose sifts move a hole

A binary heap in an array, with the two loops that move a hole instead of swapping: `siftUp` writes the parents down
until the new element fits, `siftDown` writes the smaller child up until there is none.

`siftDown` leaves the hole where it stops (`siftDown_perm`). Dropping the last cell afterwards removes the hole if the
hole is the last cell (`popped_perm`), and loses the last element otherwise (`popped_loses`).
-/

namespace Pnacl.Lib

section Sift

variable {α : Type} [Inhabited α]

/-- The element at `i`. -/
def cell (a : List α) (i : Nat) : α := a.getD i default

theorem cell_eq_getElem {a : List α} {i : Nat} (h : i < a.length) : cell a i = a[i] := by
  simp [cell, List.getD_eq_getElem?_getD, h]

theorem cell_set_self {a : List α} {i : Nat} (h : i < a.length) (x : α) : cell (a.set i x) i = x := by
  simp [cell, List.getD_eq_getElem?_getD, h]

theorem cell_set_ne {a : List α} {i j : Nat} (h : i ≠ j) (x : α) : cell (a.set i x) j = cell a j := by
  simp [cell, List.getD_eq_getElem?_getD, List.getElem?_set_ne h]

theorem cell_mem {a : List α} {i : Nat} (h : i < a.length) : cell a i ∈ a := by
  rw [cell_eq_getElem h]; exact List.getElem_mem h

theorem set_cell_self {a : List α} {i : Nat} (h : i < a.length) : a.set i (cell a i) = a := by
  rw [cell_eq_getElem h, List.set_getElem_self]

theorem cell_inj {a : List α} (hd : a.Nodup) {i j : Nat} (hi : i < a.length) (hj : j < a.length)
    (h : cell a i = cell a j) : i = j := by
  rw [cell_eq_getElem hi, cell_eq_getElem hj] at h
  exact (List.Nodup.getElem_inj_iff hd).mp h

/-- Moving the hole from `i` to `j` is a swap. -/
theorem set_cell_perm {a : List α} {i j : Nat} (hi : i < a.length) (hj : j < a.length) (h : i ≠ j) (x : α) :
    ((a.set i (cell a j)).set j x).Perm (a.set i x) := by
  have hi' : i < (a.set i x).length := by rwa [List.length_set]
  have hj' : j < (a.set i x).length := by rwa [List.length_set]
  have hswap := List.set_set_perm hi' hj'
  rwa [List.getElem_set_self, List.getElem_set_ne h, List.set_set, ← cell_eq_getElem hj] at hswap

/-! ## The way of a hole -/

/-- The hole moves from `i` to `e`, each time to a child. -/
inductive Sinks : List α → Nat → List α → Nat → Prop
  | stop (a : List α) (i : Nat) : Sinks a i a i
  | step {a b : List α} {i c e : Nat} : c = 2 * i + 1 ∨ c = 2 * i + 2 → c < a.length →
      Sinks (a.set i (cell a c)) c b e → Sinks a i b e

namespace Sinks

variable {a b : List α} {i e : Nat}

theorem length (h : Sinks a i b e) : b.length = a.length := by
  induction h with
  | stop a i => rfl
  | step _ _ _ ih => rw [ih, List.length_set]

theorem le (h : Sinks a i b e) : i ≤ e := by
  induction h with
  | stop a i => exact Nat.le_refl i
  | step hc _ _ ih => omega

theorem lt (h : Sinks a i b e) (hi : i < a.length) : e < a.length := by
  induction h with
  | stop a i => exact hi
  | step _ hc _ ih => simpa using ih (by simpa using hc)

theorem perm (h : Sinks a i b e) (hi : i < a.length) (x : α) : (b.set e x).Perm (a.set i x) := by
  induction h with
  | stop a i => exact List.Perm.refl _
  | step hc hlt _ ih => exact (ih (by simpa using hlt)).trans (set_cell_perm hi hlt (by omega) x)

/-- Cells above the hole's first place and from its last place on are as before. -/
theorem cell_eq (h : Sinks a i b e) {j : Nat} (hj : j < i ∨ e ≤ j) : cell b j = cell a j := by
  induction h with
  | stop a i => rfl
  | step hc _ hs ih =>
    have := hs.le
    rw [ih (by omega), cell_set_ne (by omega)]

end Sinks

/-! ## The two loops -/

variable [LinearOrder α]

/-- Puts `x` into the heap `a` with the hole `i`; `n` bounds the number of steps. -/
def siftUp (x : α) : Nat → List α → Nat → List α
  | 0, a, i => a.set i x
  | n + 1, a, i =>
    if i ≠ 0 ∧ x < cell a ((i - 1) / 2) then siftUp x n (a.set i (cell a ((i - 1) / 2))) ((i - 1) / 2)
    else a.set i x

/-- Moves the hole `i` of `a` down; the cells and the last place of the hole. -/
def siftDown : Nat → List α → Nat → List α × Nat
  | 0, a, i => (a, i)
  | n + 1, a, i =>
    if 2 * i + 2 < a.length then
      if cell a (2 * i + 1) < cell a (2 * i + 2) then siftDown n (a.set i (cell a (2 * i + 1))) (2 * i + 1)
      else siftDown n (a.set i (cell a (2 * i + 2))) (2 * i + 2)
    else if 2 * i + 1 < a.length then (a.set i (cell a (2 * i + 1)), 2 * i + 1)
    else (a, i)

/-! ## Sifting up -/

@[simp] theorem siftUp_length (x : α) : ∀ (n : Nat) (a : List α) (i : Nat), (siftUp x n a i).length = a.length
  | 0, a, i => by simp [siftUp]
  | n + 1, a, i => by
    rw [siftUp]
    split
    · rw [siftUp_length x n, List.length_set]
    · rw [List.length_set]

/-- The elements are those of `a` without the hole, and `x`. -/
theorem siftUp_perm (x : α) : ∀ (n : Nat) {a : List α} {i : Nat}, i < a.length → (siftUp x n a i).Perm (a.set i x)
  | 0, _, _, _ => List.Perm.refl _
  | n + 1, a, i, hi => by
    rw [siftUp]
    split
    · rename_i hup
      have hp : (i - 1) / 2 < a.length := by omega
      exact (siftUp_perm x n (by rwa [List.length_set])).trans (set_cell_perm hi hp (by omega) x)
    · exact List.Perm.refl _

/-- `i` steps are enough. -/
theorem siftUp_steps (x : α) : ∀ (n m : Nat) (a : List α) {i : Nat}, i ≤ n → i ≤ m → siftUp x n a i = siftUp x m a i
  | 0, 0, _, _, _, _ => rfl
  | 0, m + 1, a, i, h, _ => by
    have : i = 0 := by omega
    simp [siftUp, this]
  | n + 1, 0, a, i, _, h => by
    have : i = 0 := by omega
    simp [siftUp, this]
  | n + 1, m + 1, a, i, hn, hm => by
    rw [siftUp, siftUp]
    split
    · exact siftUp_steps x n m _ (by omega) (by omega)
    · rfl

/-- The old contents of the hole do not count. -/
theorem siftUp_set (x y : α) (n : Nat) (a : List α) (i : Nat) : siftUp x n (a.set i y) i = siftUp x n a i := by
  cases n with
  | zero => simp [siftUp]
  | succ n =>
    rw [siftUp, siftUp]
    by_cases h : i = 0
    · simp [h]
    · rw [cell_set_ne (by omega), List.set_set, List.set_set]

/-! ## Sifting down -/

theorem siftDown_sinks : ∀ (n : Nat) (a : List α) (i : Nat), Sinks a i (siftDown n a i).1 (siftDown n a i).2
  | 0, a, i => .stop a i
  | n + 1, a, i => by
    rw [siftDown]
    split
    · rename_i hc
      split
      · exact .step (.inl rfl) (by omega) (siftDown_sinks n _ _)
      · exact .step (.inr rfl) hc (siftDown_sinks n _ _)
    · split
      · rename_i hc
        exact .step (.inl rfl) hc (.stop _ _)
      · exact .stop a i

/-- Sifting up an element below all others takes the way back. -/
theorem Sinks.siftUp {a b : List α} {i e : Nat} (h : Sinks a i b e) {x : α} (hx : ∀ y ∈ a, x ≤ y)
    (hne : ∀ j, i < j → j < a.length → cell a j ≠ x) :
    siftUp x e b e = Lib.siftUp x i a i := by
  induction h with
  | stop a i => rfl
  | @step a b i c e hc hlt hs ih =>
    have hcx : x < cell a c := lt_of_le_of_ne (hx _ (cell_mem hlt)) (hne c (by omega) hlt).symm
    have hpar : (c - 1) / 2 = i := by omega
    have hlen : i < a.length := by omega
    rw [ih]
    · rw [siftUp_steps x c (c - 1 + 1) _ (Nat.le_refl c) (by omega), Lib.siftUp, hpar, cell_set_self hlen, if_pos ⟨by omega, hcx⟩]
      rw [siftUp_steps x (c - 1) i _ (by omega) (Nat.le_refl i)]
      have hback : (a.set i (cell a c)).set c (cell a c) = a.set i (cell a c) := by
        have hself := set_cell_self (a := a.set i (cell a c)) (i := c) (by simpa using hlt)
        rwa [cell_set_ne (by omega)] at hself
      rw [hback, siftUp_set]
    · intro y hy
      rcases List.mem_or_eq_of_mem_set hy with hy | rfl
      · exact hx y hy
      · exact hcx.le
    · intro j hj hjl
      rw [cell_set_ne (by omega)]
      exact hne j (by omega) (by simpa using hjl)

/-- With `a.length` steps the hole ends at a leaf. -/
theorem siftDown_leaf : ∀ (n : Nat) {a : List α} {i : Nat}, a.length ≤ n + i → a.length ≤ 2 * (siftDown n a i).2 + 1
  | 0, a, i, h => by simp only [siftDown]; omega
  | n + 1, a, i, h => by
    rw [siftDown]
    split
    · split
      · simpa using siftDown_leaf n (a := a.set i (cell a (2 * i + 1))) (i := 2 * i + 1) (by simp only [List.length_set]; omega)
      · simpa using siftDown_leaf n (a := a.set i (cell a (2 * i + 2))) (i := 2 * i + 2) (by simp only [List.length_set]; omega)
    · split <;> simp only <;> omega

/-- Where the left child is always the smaller one, the hole goes to the left: its places are the `2 ^ p * (i + 1) - 1`. -/
theorem siftDown_left : ∀ (n : Nat) {a : List α} {i : Nat},
    (∀ q, 1 ≤ q → 2 ^ q * (i + 1) < a.length → cell a (2 ^ q * (i + 1) - 1) < cell a (2 ^ q * (i + 1))) →
    (∃ p, (siftDown n a i).2 + 1 = 2 ^ p * (i + 1)) ∧
    ∀ j, (∀ p, j + 1 ≠ 2 ^ p * (i + 1)) → cell (siftDown n a i).1 j = cell a j
  | 0, a, i, _ => ⟨⟨0, by simp [siftDown]⟩, fun _ _ => rfl⟩
  | n + 1, a, i, h => by
    have hleft (p : Nat) : 2 ^ p * (2 * i + 1 + 1) = 2 ^ (p + 1) * (i + 1) := by ring
    have hpos (q : Nat) (hq : 1 ≤ q) : i + 1 < 2 ^ q * (i + 1) := by
      calc i + 1 < 2 * (i + 1) := by omega
        _ ≤ 2 ^ q * (i + 1) := Nat.mul_le_mul_right _ (Nat.le_self_pow (by omega) 2)
    have hset (j : Nat) (hj : ∀ p, j + 1 ≠ 2 ^ p * (i + 1)) : i ≠ j := fun hij => hj 0 (by simp [hij])
    rw [siftDown]
    split
    · rename_i hc
      have hlt : cell a (2 * i + 1) < cell a (2 * i + 2) := by
        have := h 1 le_rfl (by omega)
        rwa [show 2 ^ 1 * (i + 1) - 1 = 2 * i + 1 by omega, show 2 ^ 1 * (i + 1) = 2 * i + 2 by omega] at this
      rw [if_pos hlt]
      obtain ⟨⟨p, hp⟩, hcells⟩ := siftDown_left n (a := a.set i (cell a (2 * i + 1))) (i := 2 * i + 1) (by
        intro q hq hql
        rw [hleft] at hql ⊢
        have := hpos (q + 1) (by omega)
        rw [cell_set_ne (by omega), cell_set_ne (by omega)]
        exact h (q + 1) (by omega) (by simpa using hql))
      refine ⟨⟨p + 1, by rw [hp, hleft]⟩, fun j hj => ?_⟩
      rw [hcells j (fun p => by rw [hleft]; exact hj (p + 1)), cell_set_ne (hset j hj)]
    · split
      · refine ⟨⟨1, by simp only; omega⟩, fun j hj => cell_set_ne (hset j hj) _⟩
      · exact ⟨⟨0, by simp⟩, fun _ _ => rfl⟩

/-! ## Removing the root -/

variable {a : List α}

/-- If the hole ends in the last cell, dropping that cell removes the root and nothing else. -/
theorem popped_perm {n : Nat} (ha : a ≠ []) (hole : (siftDown n a 0).2 + 1 = a.length) :
    (siftDown n a 0).1.dropLast.Perm a.tail := by
  have hs := siftDown_sinks n a 0
  have hlen := hs.length
  have hlast : (siftDown n a 0).1.set (siftDown n a 0).2 default = (siftDown n a 0).1.dropLast ++ [default] := by
    have hne : (siftDown n a 0).1 ≠ [] := by rw [← List.length_pos_iff, hlen]; exact List.length_pos_iff.mpr ha
    conv_lhs => rw [← List.dropLast_append_getLast hne]
    rw [List.set_append_right _ _ (by simp; omega)]
    simp [hlen, ← hole]
  obtain ⟨x, t, rfl⟩ := List.exists_cons_of_ne_nil ha
  have hp := hs.perm (by simp) default
  rw [hlast, List.set_cons_zero] at hp
  exact (List.perm_cons _).mp ((List.perm_append_singleton _ _).symm.trans hp)

/-- If it ends elsewhere, the last element is lost. -/
theorem popped_loses {n : Nat} (hd : a.Nodup) (ha : a ≠ []) (hole : (siftDown n a 0).2 + 1 ≠ a.length) :
    a.getLast ha ∉ (siftDown n a 0).1.dropLast := by
  have hs := siftDown_sinks n a 0
  have hlen := hs.length
  have hpos := List.length_pos_iff.mpr ha
  have hlt := hs.lt hpos
  generalize hb : (siftDown n a 0).1 = b at *
  generalize he : (siftDown n a 0).2 = e at *
  have hlast : a.getLast ha = cell b (a.length - 1) := by
    rw [hs.cell_eq (by omega), cell_eq_getElem (by omega), List.getLast_eq_getElem]
  intro hmem
  obtain ⟨j, hj, hj'⟩ := List.mem_iff_getElem.mp hmem
  rw [List.length_dropLast, hlen] at hj
  rw [List.getElem_dropLast, ← cell_eq_getElem (by omega), hlast] at hj'
  -- the root's place is filled with the root, so that the cells are those of `a`, each once
  have hp := hs.perm hpos (cell a 0)
  rw [set_cell_self hpos] at hp
  have hnd := hp.nodup_iff.mpr hd
  by_cases hje : j = e
  · subst hje
    rw [hs.cell_eq (by omega), hs.cell_eq (by omega)] at hj'
    have := cell_inj hd (by omega) (by omega) hj'
    omega
  · rw [← cell_set_ne (i := e) (by omega) (cell a 0), ← cell_set_ne (i := e) (j := a.length - 1) (by omega) (cell a 0)]
      at hj'
    have := cell_inj hnd (by simp; omega) (by simp; omega) hj'
    omega

end Sift

end Pnacl.Lib
