import Mathlib.Data.List.Cycle

/-!
# Intrusive rings and lists

Nodes with a `next` and a `prev` link. `Ring next prev c` says that the links run around the cycle `c` in both
directions; `Nexts next h l` that the nodes from `h` on are those of `l`, up to a null link. A node is inserted behind
another one (`Ring.insert`), taken out (`Ring.remove`) or put in the place of another one (`Ring.replace`) by changing the links
of its neighbours only; what happens to the links of nodes that are not on the ring does not matter (`Ring.congr`).
-/

namespace Pnacl.Lib

variable {α : Type} {next prev next' prev' : α → α} {t n : α} {l : List α} {c : Cycle α}

/-- The links run around the cycle, and no node is on it twice. -/
structure Ring (next prev : α → α) (c : Cycle α) : Prop where
  nodup : c.Nodup
  chain : c.Chain fun x y => next x = y ∧ prev y = x

/-- A cycle starts at any of its nodes. -/
theorem exists_eq_cons_of_mem (h : t ∈ c) : ∃ l : List α, c = ↑(t :: l) := by
  induction c using Quot.inductionOn with
  | h l =>
    obtain ⟨l₁, l₂, rfl⟩ := List.append_of_mem (Cycle.mem_coe_iff.mp h)
    refine ⟨l₂ ++ l₁, Cycle.coe_eq_coe.mpr ?_⟩
    have h : (l₁ ++ t :: l₂).IsRotated ((t :: l₂) ++ l₁) := List.isRotated_append
    simpa using h

theorem ring_cons_iff : Ring next prev ↑(t :: l) ↔
    (t :: l).Nodup ∧ List.IsChain (fun x y => next x = y ∧ prev y = x) (t :: (l ++ [t])) :=
  ⟨fun h => ⟨h.nodup, (Cycle.chain_coe_cons _ _ _).mp h.chain⟩, fun h => ⟨h.1, (Cycle.chain_coe_cons _ _ _).mpr h.2⟩⟩

/-- A chain of links depends on the `next` of all nodes but the last and the `prev` of all nodes but the first. -/
theorem chain_congr : ∀ {l : List α} {t : α},
    (∀ x ∈ (t :: l).dropLast, next' x = next x) → (∀ x ∈ l, prev' x = prev x) →
    List.IsChain (fun x y => next x = y ∧ prev y = x) (t :: l) →
    List.IsChain (fun x y => next' x = y ∧ prev' y = x) (t :: l)
  | [], _, _, _, _ => .singleton _
  | y :: l, t, hn, hp, h => by
    obtain ⟨⟨h₁, h₂⟩, h⟩ := List.isChain_cons_cons.mp h
    refine List.isChain_cons_cons.mpr ⟨⟨?_, ?_⟩, chain_congr (fun x hx => hn x ?_) (fun x hx => hp x ?_) h⟩
    · rw [hn t (by simp), h₁]
    · rw [hp y (by simp), h₂]
    · rw [List.dropLast_cons_cons]
      exact List.mem_cons_of_mem _ hx
    · exact List.mem_cons_of_mem _ hx

/-- Only the links of the nodes of the ring matter. -/
theorem Ring.congr (h : Ring next prev c) (hn : ∀ x ∈ c, next' x = next x) (hp : ∀ x ∈ c, prev' x = prev x) :
    Ring next' prev' c := by
  induction c using Quot.inductionOn with
  | h l =>
    cases l with
    | nil => exact ⟨h.nodup, .nil _⟩
    | cons t l =>
      obtain ⟨h₁, h₂⟩ := ring_cons_iff.mp h
      have mem : ∀ x ∈ l ++ [t], x ∈ ((t :: l : List α) : Cycle α) := by
        intro x hx
        rw [Cycle.mem_coe_iff]
        simpa [or_comm] using hx
      refine ring_cons_iff.mpr ⟨h₁, chain_congr (fun x hx => hn x ?_) (fun x hx => hp x (mem x hx)) h₂⟩
      rcases List.mem_cons.mp (List.mem_of_mem_dropLast hx) with rfl | hx
      · exact mem x (by simp)
      · exact mem x hx

theorem Ring.next_mem (h : Ring next prev c) (ht : t ∈ c) : next t ∈ c := by
  obtain ⟨l, rfl⟩ := exists_eq_cons_of_mem ht
  obtain ⟨-, h₂⟩ := ring_cons_iff.mp h
  cases l with
  | nil =>
    rw [((List.isChain_cons_cons.mp h₂).1).1]
    exact ht
  | cons y l =>
    rw [((List.isChain_cons_cons.mp h₂).1).1]
    simp [Cycle.mem_coe_iff]

/-- The nodes of a chain are reached from its first one. -/
theorem chain_iterate {r : α → α → Prop} (hr : ∀ x y, r x y → next x = y) : ∀ {l : List α} {t x : α},
    List.IsChain r (t :: l) → x ∈ t :: l → ∃ k, next^[k] t = x
  | [], t, x, _, hx => ⟨0, (List.mem_singleton.mp hx).symm⟩
  | y :: l, t, x, h, hx => by
    obtain ⟨hy, h⟩ := List.isChain_cons_cons.mp h
    rcases List.mem_cons.mp hx with rfl | hx
    · exact ⟨0, rfl⟩
    · obtain ⟨k, hk⟩ := chain_iterate hr h hx
      refine ⟨k + 1, ?_⟩
      rw [Function.iterate_succ_apply, hr _ _ hy]
      exact hk

/-- The nodes of a ring are those that `next` reaches from any of them. -/
theorem Ring.mem_iff_iterate (h : Ring next prev c) (ht : t ∈ c) {x : α} : x ∈ c ↔ ∃ k, next^[k] t = x := by
  constructor
  · intro hx
    obtain ⟨l, rfl⟩ := exists_eq_cons_of_mem ht
    obtain ⟨-, hc⟩ := ring_cons_iff.mp h
    refine chain_iterate (fun _ _ h => h.1) hc ?_
    rw [← List.cons_append]
    exact List.mem_append_left _ hx
  · rintro ⟨k, rfl⟩
    induction k with
    | zero => exact ht
    | succ k ih =>
      rw [Function.iterate_succ_apply']
      exact h.next_mem ih

/-- Insert `n` behind `t`. -/
theorem Ring.insert (h : Ring next prev ↑(t :: l)) (hn : n ∉ t :: l) (h₁ : next' t = n) (h₂ : next' n = next t)
    (h₃ : ∀ x, x ≠ t → x ≠ n → next' x = next x) (h₄ : prev' n = t) (h₅ : prev' (next t) = n)
    (h₆ : ∀ x, x ≠ n → x ≠ next t → prev' x = prev x) : Ring next' prev' ↑(t :: n :: l) := by
  obtain ⟨hd, hc⟩ := ring_cons_iff.mp h
  have hnt : n ≠ t := List.ne_of_not_mem_cons hn
  have hnl : n ∉ l := List.not_mem_of_not_mem_cons hn
  obtain ⟨htl, hl⟩ := List.nodup_cons.mp hd
  refine ring_cons_iff.mpr ⟨?_, ?_⟩
  · exact (List.Perm.swap n t l).nodup_iff.mpr (List.nodup_cons.mpr ⟨hn, hd⟩)
  -- `y` is the node behind `t`, which is `t` itself on a ring of one node
  obtain ⟨y, l', hy⟩ : ∃ y l', l ++ [t] = y :: l' := List.exists_cons_of_ne_nil (by simp)
  have hdy : (y :: l').Nodup := by
    rw [← hy]
    exact (List.perm_append_singleton t l).nodup_iff.mpr hd
  rw [hy] at hc
  obtain ⟨⟨hty, -⟩, hc⟩ := List.isChain_cons_cons.mp hc
  rw [List.cons_append, hy]
  refine List.isChain_cons_cons.mpr ⟨⟨h₁, h₄⟩, List.isChain_cons_cons.mpr ⟨⟨h₂.trans hty, hty ▸ h₅⟩, ?_⟩⟩
  refine chain_congr (fun x hx => h₃ x ?_ ?_) (fun x hx => h₆ x ?_ ?_) hc
  · rintro rfl
    rw [← hy, List.dropLast_concat] at hx
    exact htl hx
  · rintro rfl
    rw [← hy, List.dropLast_concat] at hx
    exact hnl hx
  · rintro rfl
    have : x ∈ l ++ [t] := hy ▸ List.mem_cons_of_mem _ hx
    simp [hnl, hnt] at this
  · rintro rfl
    rw [hty] at hx
    exact (List.nodup_cons.mp hdy).1 hx

/-- The neighbours of a node that is not alone: the first and the last of the others. -/
theorem Ring.neighbours (h : Ring next prev ↑(t :: l)) (hl : l ≠ []) : next t = l.head hl ∧ prev t = l.getLast hl := by
  obtain ⟨-, hc⟩ := ring_cons_iff.mp h
  obtain ⟨y, l', rfl⟩ := List.exists_cons_of_ne_nil hl
  obtain ⟨⟨hty, -⟩, hc⟩ := List.isChain_cons_cons.mp hc
  have hc : List.IsChain (fun x y => next x = y ∧ prev y = x) ((y :: l') ++ [t]) := hc
  obtain ⟨-, -, hlast⟩ := List.isChain_append.mp hc
  exact ⟨hty, (hlast _ (List.getLast?_eq_some_getLast hl ▸ rfl) t (by simp)).2⟩

theorem Ring.prev_mem (h : Ring next prev c) (ht : t ∈ c) : prev t ∈ c := by
  obtain ⟨l, rfl⟩ := exists_eq_cons_of_mem ht
  by_cases hl : l = []
  · subst hl
    obtain ⟨-, hc⟩ := ring_cons_iff.mp h
    rw [(List.isChain_cons_cons.mp hc).1.2]
    exact ht
  · rw [(h.neighbours hl).2]
    exact List.mem_cons_of_mem _ (List.getLast_mem hl)

/-- On a ring of several nodes no node is its own neighbour. -/
theorem Ring.next_ne (h : Ring next prev c) (ht : t ∈ c) (hn : n ∈ c) (htn : n ≠ t) : next t ≠ t := by
  obtain ⟨l, rfl⟩ := exists_eq_cons_of_mem ht
  have hnl : n ∈ l := (List.mem_cons.mp (Cycle.mem_coe_iff.mp hn)).resolve_left htn
  have hl : l ≠ [] := List.ne_nil_of_mem hnl
  obtain ⟨htl, -⟩ := List.nodup_cons.mp (ring_cons_iff.mp h).1
  rw [(h.neighbours hl).1]
  exact fun he => htl (he ▸ List.head_mem hl)

/-- Take `t` out. -/
theorem Ring.remove (h : Ring next prev ↑(t :: l)) (hl : l ≠ []) (h₁ : next' (prev t) = next t)
    (h₂ : ∀ x, x ≠ t → x ≠ prev t → next' x = next x) (h₃ : prev' (next t) = prev t)
    (h₄ : ∀ x, x ≠ t → x ≠ next t → prev' x = prev x) : Ring next' prev' (l : Cycle α) := by
  obtain ⟨hd, hc⟩ := ring_cons_iff.mp h
  obtain ⟨htl, hdl⟩ := List.nodup_cons.mp hd
  obtain ⟨hty, hp⟩ := h.neighbours hl
  obtain ⟨y, l', rfl⟩ := List.exists_cons_of_ne_nil hl
  obtain ⟨-, hc⟩ := List.isChain_cons_cons.mp hc
  have hc : List.IsChain (fun x y => next x = y ∧ prev y = x) ((y :: l') ++ [t]) := hc
  obtain ⟨hc, -, -⟩ := List.isChain_append.mp hc
  rw [hty, List.head_cons] at h₁ h₃
  rw [hty, List.head_cons] at h₄
  rw [hp] at h₁ h₂ h₃
  refine ring_cons_iff.mpr ⟨hdl, ?_⟩
  rw [← List.cons_append, List.isChain_append]
  refine ⟨chain_congr (fun x hx => h₂ x ?_ ?_) (fun x hx => h₄ x ?_ ?_) hc, .singleton _, ?_⟩
  · rintro rfl
    exact htl (List.mem_of_mem_dropLast hx)
  · rintro rfl
    have := List.dropLast_append_getLast hl ▸ hdl
    exact (List.nodup_append.mp this).2.2 _ hx _ (by simp) rfl
  · rintro rfl
    exact htl (List.mem_cons_of_mem _ hx)
  · rintro rfl
    exact (List.nodup_cons.mp hdl).1 hx
  · intro x hx z hz
    rw [List.getLast?_eq_some_getLast hl] at hx
    obtain rfl := Option.some.inj hx
    obtain rfl : y = z := by simpa using hz
    exact ⟨h₁, h₃⟩

/-- The links of the first node, also where it is alone. -/
theorem Ring.getLast (h : Ring next prev ↑(t :: l)) :
    prev t = (t :: l).getLast (by simp) ∧ next ((t :: l).getLast (by simp)) = t := by
  obtain ⟨-, hc⟩ := ring_cons_iff.mp h
  have hne : t :: l ≠ [] := by simp
  rw [← List.cons_append, ← List.dropLast_append_getLast hne, List.append_assoc, List.isChain_append] at hc
  obtain ⟨-, hc, -⟩ := hc
  have hlink := (List.isChain_cons_cons.mp hc).1
  exact ⟨hlink.2, hlink.1⟩

/-- Insert `n` in front of `t`, at the end of the list behind it. -/
theorem Ring.pushBack (h : Ring next prev ↑(t :: l)) (hn : n ∉ t :: l) (h₁ : next' (prev t) = n) (h₂ : next' n = t)
    (h₃ : ∀ x, x ≠ prev t → x ≠ n → next' x = next x) (h₄ : prev' n = prev t) (h₅ : prev' t = n)
    (h₆ : ∀ x, x ≠ n → x ≠ t → prev' x = prev x) : Ring next' prev' ↑(t :: (l ++ [n])) := by
  have hne : t :: l ≠ [] := by simp
  obtain ⟨hlast, hfirst⟩ := h.getLast
  have happ := List.dropLast_append_getLast hne
  rw [← hlast] at hfirst happ
  generalize prev t = z at *
  generalize (t :: l).dropLast = front at happ
  -- the ring from its last node on
  have hrot : ((z :: front : List α) : Cycle α) = ↑(t :: l) := by
    rw [← happ]
    exact Cycle.coe_eq_coe.mpr (List.isRotated_append : List.IsRotated ([z] ++ front) (front ++ [z]))
  have hrot' : ((z :: n :: front : List α) : Cycle α) = ↑(t :: (l ++ [n])) := by
    rw [← List.cons_append, ← happ, List.append_assoc]
    exact Cycle.coe_eq_coe.mpr (List.isRotated_append : List.IsRotated ([z, n] ++ front) (front ++ [z, n]))
  have hn' : n ∉ z :: front := by
    rw [← happ] at hn
    simpa [or_comm] using hn
  rw [← hrot] at h
  rw [← hrot']
  exact h.insert hn' h₁ (h₂.trans hfirst.symm) h₃ h₄ (hfirst.symm ▸ h₅) fun x hx hxt => h₆ x hx (hfirst ▸ hxt)

/-- Take out the first node of the list behind `t`. -/
theorem Ring.popFront (h : Ring next prev ↑(t :: n :: l)) (h₁ : next' t = next n) (h₂ : ∀ x, x ≠ n → x ≠ t → next' x = next x)
    (h₃ : prev' (next n) = t) (h₄ : ∀ x, x ≠ n → x ≠ next n → prev' x = prev x) : Ring next' prev' ↑(t :: l) := by
  have hrot : ((n :: (l ++ [t]) : List α) : Cycle α) = ↑(t :: n :: l) :=
    Cycle.coe_eq_coe.mpr (List.isRotated_append : List.IsRotated ((n :: l) ++ [t]) ([t] ++ n :: l))
  have hrot' : ((l ++ [t] : List α) : Cycle α) = ↑(t :: l) :=
    Cycle.coe_eq_coe.mpr (List.isRotated_append : List.IsRotated (l ++ [t]) ([t] ++ l))
  rw [← hrot] at h
  rw [← hrot']
  have hl : l ++ [t] ≠ [] := by simp
  have hp : prev n = t := by
    rw [(h.neighbours hl).2]
    simp
  refine h.remove hl ?_ ?_ ?_ h₄
  · rw [hp, h₁]
  · rw [hp]
    exact h₂
  · rw [hp, h₃]

/-- Put `n` in the place of `t`. -/
theorem Ring.replace (h : Ring next prev ↑(t :: l)) (hl : l ≠ []) (hn : n ∉ t :: l) (h₁ : next' n = next t)
    (h₂ : next' (prev t) = n) (h₃ : ∀ x ∈ l, x ≠ prev t → next' x = next x) (h₄ : prev' n = prev t) (h₅ : prev' (next t) = n)
    (h₆ : ∀ x ∈ l, x ≠ next t → prev' x = prev x) : Ring next' prev' ↑(n :: l) := by
  obtain ⟨hd, hc⟩ := ring_cons_iff.mp h
  have hnl : n ∉ l := List.not_mem_of_not_mem_cons hn
  obtain ⟨-, hdl⟩ := List.nodup_cons.mp hd
  obtain ⟨hty, hp⟩ := h.neighbours hl
  obtain ⟨y, l', rfl⟩ := List.exists_cons_of_ne_nil hl
  obtain ⟨-, hc⟩ := List.isChain_cons_cons.mp hc
  have hc : List.IsChain (fun x y => next x = y ∧ prev y = x) ((y :: l') ++ [t]) := hc
  obtain ⟨hc, -, -⟩ := List.isChain_append.mp hc
  rw [List.head_cons] at hty
  refine ring_cons_iff.mpr ⟨List.nodup_cons.mpr ⟨hnl, hdl⟩, ?_⟩
  refine List.isChain_cons_cons.mpr ⟨⟨h₁.trans hty, hty ▸ h₅⟩, ?_⟩
  change List.IsChain _ ((y :: l') ++ [n])
  rw [List.isChain_append]
  refine ⟨chain_congr (fun x hx => h₃ x (List.mem_of_mem_dropLast hx) ?_) (fun x hx => h₆ x (List.mem_cons_of_mem _ hx) ?_) hc,
    .singleton _, ?_⟩
  · rintro rfl
    rw [hp] at hx
    have := List.dropLast_append_getLast hl ▸ hdl
    exact (List.nodup_append.mp this).2.2 _ hx _ (by simp) rfl
  · rintro rfl
    rw [hty] at hx
    exact (List.nodup_cons.mp hdl).1 hx
  · intro x hx z hz
    rw [List.getLast?_eq_some_getLast hl] at hx
    obtain rfl := Option.some.inj hx
    obtain rfl : n = z := by simpa using hz
    rw [← hp]
    exact ⟨h₂, h₄⟩

/-- The nodes from `h` on are those of the list; the last one has a null link. -/
def Nexts (next : α → α) (null : α) : α → List α → Prop
  | h, [] => h = null
  | h, x :: l => h = x ∧ Nexts next null (next x) l

theorem Nexts.congr {null : α} : ∀ {l : List α} {h : α}, (∀ x ∈ l, next' x = next x) → Nexts next null h l →
    Nexts next' null h l
  | [], _, _, h => h
  | x :: l, _, he, ⟨h, hl⟩ => by
    refine ⟨h, ?_⟩
    rw [he x (by simp)]
    exact Nexts.congr (fun y hy => he y (List.mem_cons_of_mem _ hy)) hl

end Pnacl.Lib
