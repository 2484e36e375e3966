import Mathlib.Logic.Relation
import Mathlib.Data.List.Nodup

/-!
# Natural loops

Dominance and natural loops in a graph with a root. Dominators of a node are ordered (`Dominates.total`), natural loops are
nested (`LoopBody.nest`, `LoopBody.trans`), and in a reducible graph every edge from the end of a walk back into the walk
goes to a dominator (`ReducibleGraph.dominates`). `depth` is the position on the walk of a depth-first search.
-/

namespace Pnacl.Lib

open Relation

section Graph

variable {α : Type*} (E : α → α → Prop) (root : α)

/-- A walk from the root, with its last node in front. -/
inductive Walk : List α → α → Prop
  | root : Walk [root] root
  | step {p : List α} {a b : α} (h : Walk p a) (he : E a b) : Walk (b :: p) b

/-- There is a walk from the root to the node. -/
def Reached (a : α) : Prop := ∃ p, Walk E root p a

/-- Every walk to `b` comes by `a`. -/
def Dominates (a b : α) : Prop := ∀ p, Walk E root p b → a ∈ p

/-- An edge to a dominator of its source. -/
def BackEdge (u h : α) : Prop := Reached E root u ∧ E u h ∧ Dominates E root h u

/-- The nodes of the natural loop of `h` other than `h`: from them a back edge to `h` is reached without coming by `h`. -/
def LoopBody (h a : α) : Prop := a ≠ h ∧ ∃ u, BackEdge E root u h ∧ ReflTransGen (fun x y => E x y ∧ y ≠ h) a u

/-- The natural loop of `h`: the loops of all back edges to `h` together. -/
def NaturalLoop (h a : α) : Prop := (a = h ∧ ∃ u, BackEdge E root u h) ∨ LoopBody E root h a

/-- `h` is the header, other than `a`, of the smallest natural loop that `a` is in. -/
def Innermost (a h : α) : Prop :=
  h ≠ a ∧ NaturalLoop E root h a ∧
    ∀ g, g ≠ a → NaturalLoop E root g a → ∀ x, NaturalLoop E root h x → NaturalLoop E root g x

/-- Without the back edges there is no cycle. -/
def ReducibleGraph : Prop :=
  ∀ a, ¬TransGen (fun u v => (Reached E root u ∧ E u v) ∧ ¬Dominates E root v u) a a

variable {E root} {p q s t : List α} {a b c g h u v x y z : α}

/-! ## Walks -/

theorem Walk.eq_cons (hp : Walk E root p a) : ∃ t, p = a :: t := by
  cases hp with
  | root => exact ⟨_, rfl⟩
  | step => exact ⟨_, rfl⟩

theorem Walk.mem (hp : Walk E root p a) : a ∈ p := by
  obtain ⟨t, rfl⟩ := hp.eq_cons
  exact List.mem_cons_self

/-- The walk up to one of its nodes. -/
theorem Walk.rest (hp : Walk E root (s ++ a :: t) b) : Walk E root (a :: t) a := by
  induction s generalizing b with
  | nil =>
    obtain ⟨_, heq⟩ := hp.eq_cons
    cases heq
    exact hp
  | cons c s ih =>
    rw [List.cons_append] at hp
    generalize hr : s ++ a :: t = r at hp
    cases hp with
    | root => simp at hr
    | step hp _ => exact ih (hr ▸ hp)

/-- Another way to a node of the walk. -/
theorem Walk.splice (hp : Walk E root (s ++ a :: t) b) (hq : Walk E root q a) : Walk E root (s ++ q) b := by
  induction s generalizing b with
  | nil =>
    obtain ⟨_, heq⟩ := hp.eq_cons
    cases heq
    exact hq
  | cons c s ih =>
    rw [List.cons_append] at hp
    generalize hr : s ++ a :: t = r at hp
    cases hp with
    | root => simp at hr
    | step hp he => exact .step (ih (hr ▸ hp)) he

/-- The end of a walk, from one of its nodes on. -/
theorem Walk.along (hp : Walk E root (s ++ a :: t) b) (hs : h ∉ s) : ReflTransGen (fun x y => E x y ∧ y ≠ h) a b := by
  induction s generalizing b with
  | nil =>
    obtain ⟨_, heq⟩ := hp.eq_cons
    cases heq
    exact .refl
  | cons c s ih =>
    rw [List.mem_cons, not_or] at hs
    rw [List.cons_append] at hp
    generalize hr : s ++ a :: t = r at hp
    cases hp with
    | root => simp at hr
    | step hp he => exact (ih (hr ▸ hp) hs.2).tail ⟨he, Ne.symm hs.1⟩

theorem Walk.extend (hp : Walk E root p a) (hr : ReflTransGen (fun x y => E x y ∧ y ≠ h) a b) :
    ∃ s, Walk E root (s ++ p) b ∧ h ∉ s := by
  induction hr with
  | refl => exact ⟨[], hp, List.not_mem_nil⟩
  | tail _ he ih =>
    obtain ⟨s, hs, hh⟩ := ih
    exact ⟨_ :: s, hs.step he.1, fun hm => (List.mem_cons.mp hm).elim (fun heq => he.2 heq.symm) hh⟩

theorem Reached.of_mem (hp : Walk E root p b) (ha : a ∈ p) : Reached E root a := by
  obtain ⟨s, t, rfl⟩ := List.append_of_mem ha
  exact ⟨_, hp.rest⟩

theorem Reached.edge (hr : Reached E root a) (he : E a b) : Reached E root b := by
  obtain ⟨p, hp⟩ := hr
  exact ⟨_, hp.step he⟩

theorem Reached.path (hr : Reached E root a) (hp : ReflTransGen E a b) : Reached E root b := by
  induction hp with
  | refl => exact hr
  | tail _ he ih => exact ih.edge he

/-! ## Dominance -/

theorem Dominates.refl (a : α) : Dominates E root a a := fun _ hp => hp.mem

/-- A dominator of the target other than it dominates the source. -/
theorem Dominates.source (hd : Dominates E root h b) (he : E a b) (hne : h ≠ b) : Dominates E root h a :=
  fun _ hp => (List.mem_cons.mp (hd _ (hp.step he))).resolve_left hne

theorem Dominates.reached (hd : Dominates E root a b) : Reached E root b → Reached E root a :=
  fun ⟨p, hp⟩ => .of_mem hp (hd p hp)

theorem Dominates.mem_walk (hd : Dominates E root a b) (hp : Walk E root p x) (hb : b ∈ p) : a ∈ p := by
  obtain ⟨s, t, rfl⟩ := List.append_of_mem hb
  exact List.mem_append_right _ (hd _ hp.rest)

theorem Dominates.antisymm (hab : Dominates E root a b) (hba : Dominates E root b a) (ha : Reached E root a) : a = b := by
  by_contra hne
  obtain ⟨p, hp⟩ := ha
  generalize hn : p.length = n
  -- on a walk to `a` there is `b` before, and `a` before that
  induction n using Nat.strongRecOn generalizing p with
  | _ n ih =>
    obtain ⟨s, t, rfl⟩ := List.append_of_mem (hba p hp)
    obtain ⟨s', t', ht⟩ := List.append_of_mem (hab _ hp.rest)
    have hw := hp.rest
    rw [ht] at hw
    cases s with
    | nil =>
      obtain ⟨_, heq⟩ := hp.eq_cons
      cases heq
      exact hne rfl
    | cons c s =>
      refine ih _ ?_ _ hw.rest rfl
      have hlen := congrArg List.length ht
      simp only [List.length_append, List.length_cons] at hlen hn ⊢
      omega

/-- The first of two nodes on a list. -/
theorem exists_first (ha : a ∈ p) (b : α) : ∃ s c t, p = s ++ c :: t ∧ (c = a ∨ c = b) ∧ a ∉ s ∧ b ∉ s := by
  induction p with
  | nil => cases ha
  | cons x p ih =>
    by_cases hx : x = a ∨ x = b
    · exact ⟨[], x, p, rfl, hx, List.not_mem_nil, List.not_mem_nil⟩
    · rw [not_or] at hx
      obtain ⟨s, c, t, rfl, hc, hsa, hsb⟩ := ih ((List.mem_cons.mp ha).resolve_left (Ne.symm hx.1))
      refine ⟨x :: s, c, t, rfl, hc, ?_, ?_⟩
      · exact List.not_mem_cons_of_ne_of_not_mem (Ne.symm hx.1) hsa
      · exact List.not_mem_cons_of_ne_of_not_mem (Ne.symm hx.2) hsb

/-- Of two dominators of one node, one dominates the other. -/
theorem Dominates.total (ha : Dominates E root a x) (hb : Dominates E root b x) (hx : Reached E root x) :
    Dominates E root a b ∨ Dominates E root b a := by
  obtain ⟨p, hp⟩ := hx
  obtain ⟨s, c, t, rfl, rfl | rfl, hsa, hsb⟩ := exists_first (ha p hp) b
  · exact .inr fun q hq => (List.mem_append.mp (hb _ (hp.splice hq))).resolve_left hsb
  · exact .inl fun q hq => (List.mem_append.mp (ha _ (hp.splice hq))).resolve_left hsa

/-! ## Loops -/

theorem LoopBody.dominates (hx : LoopBody E root h x) : Dominates E root h x := by
  obtain ⟨-, u, hu, hr⟩ := hx
  intro p hp
  obtain ⟨s, hs, hh⟩ := hp.extend hr
  exact (List.mem_append.mp (hu.2.2 _ hs)).resolve_left hh

theorem LoopBody.reached (hx : LoopBody E root h x) : Reached E root h := by
  obtain ⟨-, u, hu, -⟩ := hx
  exact hu.2.2.reached hu.1

/-- The source of a back edge. -/
theorem BackEdge.loopBody (hu : BackEdge E root u h) (hne : u ≠ h) : LoopBody E root h u := ⟨hne, u, hu, .refl⟩

/-- One edge before the loop. -/
theorem LoopBody.edge (hx : LoopBody E root h b) (he : E a b) (hne : a ≠ h) : LoopBody E root h a := by
  obtain ⟨hb, u, hu, hr⟩ := hx
  exact ⟨hne, u, hu, .head ⟨he, hb⟩ hr⟩

/-- The loop of `h` holds the header of another loop of one of its nodes, when `h` dominates that header. -/
theorem LoopBody.nest (hx : LoopBody E root h x) (hgx : Dominates E root g x) (hhg : Dominates E root h g) (hne : h ≠ g)
    (hr : Reached E root x) : LoopBody E root h g := by
  obtain ⟨-, u, hu, hxu⟩ := hx
  obtain ⟨p, hp⟩ := hr
  obtain ⟨s, c, t, rfl, hc, hsg, hsh⟩ := exists_first (hgx p hp) h
  rcases hc with rfl | rfl
  · exact ⟨Ne.symm hne, u, hu, (hp.along hsh).trans hxu⟩
  · -- another way to `c` comes by `g`
    have hd : Dominates E root g c := fun q hq => (List.mem_append.mp (hgx _ (hp.splice hq))).resolve_left hsg
    exact absurd (hhg.antisymm hd ⟨_, hp.rest⟩) hne

theorem LoopBody.trans (hx : LoopBody E root y x) (hy : LoopBody E root z y) : LoopBody E root z x := by
  have hmeet : ¬LoopBody E root y z := fun hz => hy.1 (hz.dominates.antisymm hy.dominates hx.reached)
  have hne : x ≠ z := by
    rintro rfl
    exact hmeet hx
  obtain ⟨-, v, hv, hxv⟩ := hx
  obtain ⟨hyz, u, hu, hyu⟩ := hy
  refine ⟨hne, u, hu, ReflTransGen.trans ?_ (.head ⟨hv.2.1, hyz⟩ hyu)⟩
  clear hne
  induction hxv using ReflTransGen.head_induction_on with
  | refl => exact .refl
  | head he hr ih =>
    refine .head ⟨he.1, ?_⟩ ih
    rintro rfl
    exact hmeet ⟨he.2, v, hv, hr⟩

theorem LoopBody.natural (hx : LoopBody E root h x) : NaturalLoop E root h x := .inr hx

/-- The loop of `h` holds the whole loop of each header in it. -/
theorem LoopBody.subset (hg : LoopBody E root h g) (hx : NaturalLoop E root g x) : NaturalLoop E root h x := by
  rcases hx with ⟨rfl, -⟩ | hx
  · exact hg.natural
  · exact .inr (hx.trans hg)

theorem NaturalLoop.loopBody (hx : NaturalLoop E root h x) (hne : h ≠ x) : LoopBody E root h x :=
  hx.resolve_left fun heq => hne heq.1.symm

/-- A header of a loop that is in all loops of the node with another header. -/
theorem LoopBody.innermost (hx : LoopBody E root h x) (hall : ∀ g, LoopBody E root g x → g = h ∨ LoopBody E root g h) :
    Innermost E root x h := by
  refine ⟨Ne.symm hx.1, hx.natural, fun g hne hg y hy => ?_⟩
  rcases hall g (hg.loopBody hne) with rfl | hgh
  · exact hy
  · exact hgh.subset hy

theorem Innermost.unique (hg : Innermost E root x g) (hh : Innermost E root x h) : g = h := by
  by_contra hne
  obtain ⟨hgx, hgl, hg⟩ := hg
  obtain ⟨hhx, hhl, hh⟩ := hh
  have hself : ∀ {y}, NaturalLoop E root y x → y ≠ x → NaturalLoop E root y y := fun hy hyx =>
    .inl ⟨rfl, (hy.loopBody hyx).2.imp fun _ hu => hu.1⟩
  have hgh := (hg h hhx hhl g (hself hgl hgx)).loopBody (Ne.symm hne)
  have hhg := (hh g hgx hgl h (hself hhl hhx)).loopBody hne
  exact hne (hhg.dominates.antisymm hgh.dominates hhg.reached)

theorem Dominates.trans (hab : Dominates E root a b) (hbc : Dominates E root b c) : Dominates E root a c :=
  fun _ hp => hab.mem_walk hp (hbc _ hp)

/-! ## Without the back edges to one node -/

/-- The edges but the back edges to `w` from other nodes. -/
def withoutBack (E : α → α → Prop) (root w : α) : α → α → Prop := fun u v =>
  E u v ∧ ¬(v = w ∧ u ≠ w ∧ Dominates E root w u)

section Without

variable {w : α}

theorem Walk.of_withoutBack (hp : Walk (withoutBack E root w) root p a) : Walk E root p a := by
  induction hp with
  | root => exact .root
  | step _ he ih => exact .step ih he.1

/-- A walk loses its rounds by `w`. -/
theorem Walk.withoutBack (hp : Walk E root p a) : ∃ q, Walk (withoutBack E root w) root q a ∧ ∀ x ∈ q, x ∈ p := by
  induction hp with
  | root => exact ⟨_, .root, fun x hx => hx⟩
  | @step p u v hp he ih =>
    obtain ⟨q, hq, hsub⟩ := ih
    by_cases hback : v = w ∧ u ≠ w ∧ Dominates E root w u
    · obtain ⟨rfl, -, hd⟩ := hback
      obtain ⟨s, t, rfl⟩ := List.append_of_mem (hd _ hq.of_withoutBack)
      exact ⟨_, hq.rest, fun x hx => List.mem_cons_of_mem _ (hsub x (List.mem_append_right _ hx))⟩
    · exact ⟨_, hq.step ⟨he, hback⟩, List.forall_mem_cons.mpr
        ⟨List.mem_cons_self, fun x hx => List.mem_cons_of_mem _ (hsub x hx)⟩⟩

theorem reached_withoutBack : Reached (withoutBack E root w) root a ↔ Reached E root a := by
  constructor
  · rintro ⟨p, hp⟩
    exact ⟨p, hp.of_withoutBack⟩
  · rintro ⟨p, hp⟩
    obtain ⟨q, hq, -⟩ := hp.withoutBack (w := w)
    exact ⟨q, hq⟩

theorem dominates_withoutBack : Dominates (withoutBack E root w) root a b ↔ Dominates E root a b := by
  constructor
  · intro hd p hp
    obtain ⟨q, hq, hsub⟩ := hp.withoutBack (w := w)
    exact hsub a (hd q hq)
  · intro hd p hp
    exact hd p hp.of_withoutBack

theorem backEdge_withoutBack : BackEdge (withoutBack E root w) root u h ↔ BackEdge E root u h ∧ (h = w → u = w) := by
  unfold BackEdge
  rw [reached_withoutBack, dominates_withoutBack]
  constructor
  · rintro ⟨hr, ⟨he, hback⟩, hd⟩
    refine ⟨⟨hr, he, hd⟩, fun heq => ?_⟩
    by_contra hne
    exact hback ⟨heq, hne, heq ▸ hd⟩
  · rintro ⟨⟨hr, he, hd⟩, hw⟩
    exact ⟨hr, ⟨he, fun hback => hback.2.1 (hw hback.1)⟩, hd⟩

theorem ReducibleGraph.withoutBack (hred : ReducibleGraph E root) : ReducibleGraph (withoutBack E root w) root := by
  intro a hcycle
  refine hred a (TransGen.mono (fun u v h => ?_) _ _ hcycle)
  obtain ⟨⟨hr, he⟩, hd⟩ := h
  exact ⟨⟨reached_withoutBack.mp hr, he.1⟩, fun h => hd (dominates_withoutBack.mpr h)⟩

theorem LoopBody.of_withoutBack (hx : LoopBody (withoutBack E root w) root h x) : LoopBody E root h x := by
  obtain ⟨hne, u, hu, hr⟩ := hx
  exact ⟨hne, u, (backEdge_withoutBack.mp hu).1, ReflTransGen.mono (fun a b h => ⟨h.1.1, h.2⟩) _ _ hr⟩

/-- A loop in the loop of `w` does not come by `w`. -/
theorem LoopBody.withoutBack_inside (hx : LoopBody E root h x) (hd : Dominates E root w h) (hne : w ≠ h) :
    LoopBody (withoutBack E root w) root h x := by
  have hmeet : ¬LoopBody E root h w := fun hw => hne (hd.antisymm hw.dominates (hd.reached hw.reached))
  obtain ⟨hxh, u, hu, hr⟩ := hx
  refine ⟨hxh, u, backEdge_withoutBack.mpr ⟨hu, fun heq => absurd heq.symm hne⟩, ?_⟩
  clear hxh
  induction hr using ReflTransGen.head_induction_on with
  | refl => exact .refl
  | head he hr ih =>
    refine .head ⟨⟨he.1, ?_⟩, he.2⟩ ih
    rintro ⟨rfl, -⟩
    exact hmeet ⟨he.2, u, hu, hr⟩

/-- A path comes by a node, or does not. -/
theorem avoids_or_meets {R : α → α → Prop} (hr : ReflTransGen R a b) (w : α) :
    ReflTransGen R a w ∨ ReflTransGen (fun x y => R x y ∧ y ≠ w) a b := by
  induction hr with
  | refl => exact .inr .refl
  | @tail b c hr he ih =>
    rcases ih with h | h
    · exact .inl h
    · by_cases hc : c = w
      · subst hc
        exact .inl (hr.tail he)
      · exact .inr (h.tail ⟨he, hc⟩)

/-- A node that is not in the loop of `w` keeps its other loops. -/
theorem LoopBody.withoutBack_outside (hx : LoopBody E root h x) (hne : h ≠ w) (hout : ¬LoopBody E root w x)
    (hreach : Reached E root x) : LoopBody (withoutBack E root w) root h x := by
  obtain ⟨hxh, u, hu, hr⟩ := hx
  refine ⟨hxh, u, backEdge_withoutBack.mpr ⟨hu, fun heq => absurd heq hne⟩, ?_⟩
  clear hu
  induction hr with
  | refl => exact .refl
  | @tail y z _ he ih =>
    by_cases hback : z = w ∧ y ≠ w ∧ Dominates E root w y
    · obtain ⟨rfl, hy, hd⟩ := hback
      -- the path to `y` has been at `z`, since `x` is not in its loop
      by_cases hxz : x = z
      · subst hxz
        exact .refl
      refine (avoids_or_meets ih z).resolve_right fun h => hout ?_
      have hpath := ReflTransGen.mono (fun a b h => (⟨h.1.1.1, h.2⟩ : E a b ∧ b ≠ z)) _ _ h
      exact ⟨hxz, y, ⟨hreach.path (ReflTransGen.mono (fun _ _ h => h.1) _ _ hpath), he.1, hd⟩, hpath⟩
    · exact ih.tail ⟨⟨he.1, hback⟩, he.2⟩

end Without

/-! ## Walks of a search -/

/-- The edges of a walk without repetitions are no back edges. -/
theorem Walk.forward (hp : Walk E root (s ++ a :: t) b) (hn : (s ++ a :: t).Nodup) :
    ReflTransGen (fun u v => (Reached E root u ∧ E u v) ∧ ¬Dominates E root v u) a b := by
  induction s generalizing b with
  | nil =>
    obtain ⟨_, heq⟩ := hp.eq_cons
    cases heq
    exact .refl
  | cons c s ih =>
    rw [List.cons_append] at hp hn
    generalize hr : s ++ a :: t = r at hp hn
    cases hp with
    | root => simp at hr
    | step hp he =>
      obtain ⟨hc, hn⟩ := List.nodup_cons.mp hn
      exact (ih (hr ▸ hp) (hr ▸ hn)).tail ⟨⟨⟨_, hp⟩, he⟩, fun hd => hc (hd _ hp)⟩

/-- In a reducible graph an edge from the end of a walk back into the walk goes to a dominator. -/
theorem ReducibleGraph.dominates (hred : ReducibleGraph E root) (hp : Walk E root p b) (hn : p.Nodup) (ha : a ∈ p)
    (he : E b a) : Dominates E root a b := by
  by_contra hd
  obtain ⟨s, t, rfl⟩ := List.append_of_mem ha
  exact hred a (TransGen.tail' (hp.forward hn) ⟨⟨⟨_, hp⟩, he⟩, hd⟩)

/-- A graph whose edges all go up, but for edges to dominators, is reducible. -/
theorem reducibleGraph_of_rank (rank : α → Nat)
    (hall : ∀ u v, Reached E root u → E u v → rank u < rank v ∨ Dominates E root v u) : ReducibleGraph E root := by
  intro a hcycle
  have hlt : ∀ {b}, TransGen (fun u v => (Reached E root u ∧ E u v) ∧ ¬Dominates E root v u) a b → rank a < rank b := by
    intro b hab
    induction hab with
    | single h => exact (hall _ _ h.1.1 h.1.2).resolve_right h.2
    | tail _ h ih => exact Nat.lt_trans ih ((hall _ _ h.1.1 h.1.2).resolve_right h.2)
  exact Nat.lt_irrefl _ (hlt hcycle)

theorem root_dominates (a : α) : Dominates E root root a := by
  intro p hp
  induction hp with
  | root => exact List.mem_cons_self
  | step _ _ ih => exact List.mem_cons_of_mem _ ih

/-- The only source of edges to a node dominates it. -/
theorem dominates_of_edge (hne : b ≠ root) (hall : ∀ u, E u b → u = a) : Dominates E root a b := by
  intro p hp
  cases hp with
  | root => exact absurd rfl hne
  | step hp he =>
    obtain rfl := hall _ he
    exact List.mem_cons_of_mem _ hp.mem

section Depth

variable [DecidableEq α]

/-- The position of a node on a walk, counted from the root; `0` is a node that is not on the walk. -/
def depth : List α → α → Nat
  | [], _ => 0
  | b :: p, a => if a = b then p.length + 1 else depth p a

theorem depth_pos : 0 < depth p a ↔ a ∈ p := by
  induction p with
  | nil => simp [depth]
  | cons b p ih =>
    rw [depth, List.mem_cons]
    split <;> simp [*]

theorem depth_eq_zero (ha : a ∉ p) : depth p a = 0 := by
  have := (depth_pos (p := p) (a := a)).not.mpr ha
  omega

theorem depth_le : depth p a ≤ p.length := by
  induction p with
  | nil => exact Nat.le_refl _
  | cons b p ih =>
    rw [depth, List.length_cons]
    split <;> omega

theorem depth_inj (ha : a ∈ p) (h : depth p a = depth p b) : a = b := by
  induction p with
  | nil => cases ha
  | cons c p ih =>
    have hle := @depth_le α p
    rw [depth, depth] at h
    by_cases hac : a = c
    · by_cases hbc : b = c
      · rw [hac, hbc]
      · rw [if_pos hac, if_neg hbc] at h
        have := hle (a := b)
        omega
    · have ha := (List.mem_cons.mp ha).resolve_left hac
      by_cases hbc : b = c
      · rw [if_neg hac, if_pos hbc] at h
        have := hle (a := a)
        omega
      · rw [if_neg hac, if_neg hbc] at h
        exact ih ha h

theorem depth_append (ha : a ∉ s) : depth (s ++ t) a = depth t a := by
  induction s with
  | nil => rfl
  | cons b s ih =>
    rw [List.mem_cons, not_or] at ha
    rw [List.cons_append, depth, if_neg ha.1, ih ha.2]

/-- On a walk without repetitions a dominator does not come behind the node. -/
theorem Dominates.depth_le (hd : Dominates E root a b) (hp : Walk E root p x) (hn : p.Nodup) (hb : b ∈ p) :
    depth p a ≤ depth p b := by
  obtain ⟨s, t, rfl⟩ := List.append_of_mem hb
  obtain ⟨-, -, hst⟩ := List.nodup_append.mp hn
  have hbs : b ∉ s := fun hm => hst b hm b List.mem_cons_self rfl
  have ha := hd _ hp.rest
  have has : a ∉ s := fun hm => hst a hm a ha rfl
  rw [depth_append has, depth_append hbs]
  calc depth (b :: t) a ≤ (b :: t).length := Lib.depth_le
    _ = depth (b :: t) b := by rw [depth, if_pos rfl]; rfl

/-- The header of a loop comes before the nodes of its body. -/
theorem LoopBody.depth_lt (hb : LoopBody E root h b) (hp : Walk E root p x) (hn : p.Nodup) (hm : b ∈ p) :
    depth p h < depth p b :=
  Nat.lt_of_le_of_ne (hb.dominates.depth_le hp hn hm) fun heq => hb.1 (depth_inj hm heq.symm)

/-- Of two dominators of a node of the walk, the one nearer to the root dominates the other. -/
theorem Dominates.of_depth_lt (ha : Dominates E root a y) (hb : Dominates E root b y) (hp : Walk E root p x) (hn : p.Nodup)
    (hy : y ∈ p) (hlt : depth p a < depth p b) : Dominates E root a b := by
  refine (ha.total hb (.of_mem hp hy)).resolve_right fun hba => ?_
  have := hba.depth_le hp hn (ha.mem_walk hp hy)
  omega

end Depth

end Graph

end Pnacl.Lib
