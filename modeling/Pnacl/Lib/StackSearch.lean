import Mathlib.Data.List.Nodup
import Mathlib.Data.List.Perm.Subperm

/-!
# Search with a stack

The nodes that a search finds which starts at one node, does not go beyond the nodes where it must stop, and keeps the nodes
that it still has to visit on a stack. `SearchInv` is the invariant of such a search; when the stack is empty, what has been
visited is what can be reached (`SearchInv.visited_iff`).
-/

namespace Pnacl.Lib

section Search

variable {α : Type} (next : α → List α) (stop : α → Prop) (start : α)

/-- There is a way from `start` to the node that meets no node where the search stops. -/
inductive Reaches : α → Prop
  | start (h : ¬stop start) : Reaches start
  | next {a b : α} (ha : Reaches a) (hb : b ∈ next a) (h : ¬stop b) : Reaches b

/-- Push the nodes that have not been seen, and see them. -/
def pushUnseen [DecidableEq α] : List α → List α → List α → List α × List α
  | [], stack, seen => (stack, seen)
  | a :: as, stack, seen => if a ∈ seen then pushUnseen as stack seen else pushUnseen as (a :: stack) (a :: seen)

/-- The state of a search: the stack, the nodes seen and the nodes visited. -/
structure SearchInv (stack seen visited : List α) : Prop where
  start_seen : start ∈ seen
  seen_nodup : seen.Nodup
  stack_nodup : stack.Nodup
  stack_seen : ∀ a ∈ stack, a ∈ seen
  visited_seen : ∀ a ∈ visited, a ∈ seen
  fresh : ∀ a ∈ stack, a ∉ visited
  sound : ∀ a ∈ visited, Reaches next stop start a
  front : ∀ a ∈ stack, ¬stop a → Reaches next stop start a
  seen_cases : ∀ a ∈ seen, a ∈ stack ∨ stop a ∨ a ∈ visited
  closed : ∀ a ∈ visited, ∀ b ∈ next a, b ∈ seen

variable {next stop start} {stack seen visited : List α} {a : α}

section Push

variable [DecidableEq α]

theorem mem_pushUnseen_seen {as : List α} {b : α} : b ∈ (pushUnseen as stack seen).2 ↔ b ∈ seen ∨ b ∈ as := by
  induction as generalizing stack seen with
  | nil => simp [pushUnseen]
  | cons c as ih =>
    rw [pushUnseen]
    split
    · rw [ih, List.mem_cons]
      constructor
      · rintro (h | h)
        · exact .inl h
        · exact .inr (.inr h)
      · rintro (h | rfl | h)
        · exact .inl h
        · exact .inl ‹_›
        · exact .inr h
    · rw [ih, List.mem_cons, List.mem_cons, or_assoc, or_left_comm]

theorem mem_pushUnseen_stack {as : List α} {b : α} :
    b ∈ (pushUnseen as stack seen).1 ↔ b ∈ stack ∨ (b ∈ as ∧ b ∉ seen) := by
  induction as generalizing stack seen with
  | nil => simp [pushUnseen]
  | cons c as ih =>
    rw [pushUnseen]
    split
    · rename_i hc
      rw [ih, List.mem_cons]
      constructor
      · rintro (h | ⟨h, h'⟩)
        · exact .inl h
        · exact .inr ⟨.inr h, h'⟩
      · rintro (h | ⟨rfl | h, h'⟩)
        · exact .inl h
        · exact absurd hc h'
        · exact .inr ⟨h, h'⟩
    · rename_i hc
      rw [ih, List.mem_cons, List.mem_cons, List.mem_cons, not_or]
      constructor
      · rintro ((rfl | h) | ⟨h, -, h'⟩)
        · exact .inr ⟨.inl rfl, hc⟩
        · exact .inl h
        · exact .inr ⟨.inr h, h'⟩
      · rintro (h | ⟨rfl | h, h'⟩)
        · exact .inl (.inr h)
        · exact .inl (.inl rfl)
        · by_cases hbc : b = c
          · exact .inl (.inl hbc)
          · exact .inr ⟨h, hbc, h'⟩

theorem pushUnseen_nodup {as : List α} (hstack : stack.Nodup) (hseen : seen.Nodup) (hsub : ∀ a ∈ stack, a ∈ seen) :
    (pushUnseen as stack seen).1.Nodup ∧ (pushUnseen as stack seen).2.Nodup := by
  induction as generalizing stack seen with
  | nil => exact ⟨hstack, hseen⟩
  | cons c as ih =>
    rw [pushUnseen]
    split
    · exact ih hstack hseen hsub
    · rename_i hc
      refine ih (List.nodup_cons.mpr ⟨fun h => hc (hsub c h), hstack⟩) (List.nodup_cons.mpr ⟨hc, hseen⟩) fun a ha => ?_
      rcases List.mem_cons.mp ha with rfl | ha
      · exact List.mem_cons_self ..
      · exact List.mem_cons_of_mem _ (hsub a ha)

/-- What is pushed is seen. -/
theorem pushUnseen_length (as : List α) (stack seen : List α) :
    (pushUnseen as stack seen).1.length + seen.length = stack.length + (pushUnseen as stack seen).2.length := by
  induction as generalizing stack seen with
  | nil => exact rfl
  | cons c as ih =>
    rw [pushUnseen]
    split
    · exact ih stack seen
    · have := ih (c :: stack) (c :: seen)
      simp only [List.length_cons] at this
      omega

end Push

/-- The search begins. -/
theorem SearchInv.init (next : α → List α) (stop : α → Prop) (start : α) : SearchInv next stop start [start] [start] [] := by
  constructor <;> simp
  exact fun h => .start h

/-- A node where the search stops is dropped. -/
theorem SearchInv.pop (h : SearchInv next stop start (a :: stack) seen visited) (ha : stop a) :
    SearchInv next stop start stack seen visited where
  start_seen := h.start_seen
  seen_nodup := h.seen_nodup
  stack_nodup := (List.nodup_cons.mp h.stack_nodup).2
  stack_seen b hb := h.stack_seen b (List.mem_cons_of_mem _ hb)
  visited_seen := h.visited_seen
  fresh b hb := h.fresh b (List.mem_cons_of_mem _ hb)
  sound := h.sound
  front b hb := h.front b (List.mem_cons_of_mem _ hb)
  seen_cases b hb := by
    rcases h.seen_cases b hb with hstack | hrest
    · rcases List.mem_cons.mp hstack with rfl | hstack
      · exact .inr (.inl ha)
      · exact .inl hstack
    · exact .inr hrest
  closed := h.closed

/-- Another one is visited, and what follows it is pushed. -/
theorem SearchInv.visit [DecidableEq α] (h : SearchInv next stop start (a :: stack) seen visited) (ha : ¬stop a) :
    SearchInv next stop start (pushUnseen (next a) stack seen).1 (pushUnseen (next a) stack seen).2 (a :: visited) := by
  obtain ⟨hmem, hnodup⟩ := List.nodup_cons.mp h.stack_nodup
  have hseen := fun b hb => h.stack_seen b (List.mem_cons_of_mem _ hb)
  have hreach := h.front a (List.mem_cons_self ..) ha
  obtain ⟨hstack', hseen'⟩ : (pushUnseen (next a) stack seen).1.Nodup ∧ (pushUnseen (next a) stack seen).2.Nodup :=
    pushUnseen_nodup hnodup h.seen_nodup hseen
  constructor
  · exact mem_pushUnseen_seen.mpr (.inl h.start_seen)
  · exact hseen'
  · exact hstack'
  · intro b hb
    rcases mem_pushUnseen_stack.mp hb with hb | ⟨hb, -⟩
    · exact mem_pushUnseen_seen.mpr (.inl (hseen b hb))
    · exact mem_pushUnseen_seen.mpr (.inr hb)
  · intro b hb
    rcases List.mem_cons.mp hb with rfl | hb
    · exact mem_pushUnseen_seen.mpr (.inl (h.stack_seen b (List.mem_cons_self ..)))
    · exact mem_pushUnseen_seen.mpr (.inl (h.visited_seen b hb))
  · intro b hb
    rw [List.mem_cons, not_or]
    rcases mem_pushUnseen_stack.mp hb with hb | ⟨-, hb⟩
    · exact ⟨fun hab => hmem (hab ▸ hb), h.fresh b (List.mem_cons_of_mem _ hb)⟩
    · exact ⟨fun hab => hb (hab ▸ h.stack_seen a (List.mem_cons_self ..)), fun hv => hb (h.visited_seen b hv)⟩
  · intro b hb
    rcases List.mem_cons.mp hb with rfl | hb
    · exact hreach
    · exact h.sound b hb
  · intro b hb hstop
    rcases mem_pushUnseen_stack.mp hb with hb | ⟨hb, -⟩
    · exact h.front b (List.mem_cons_of_mem _ hb) hstop
    · exact .next hreach hb hstop
  · intro b hb
    by_cases hbs : b ∈ seen
    · rcases h.seen_cases b hbs with hstack | hrest | hvisited
      · rcases List.mem_cons.mp hstack with rfl | hstack
        · exact .inr (.inr (List.mem_cons_self ..))
        · exact .inl (mem_pushUnseen_stack.mpr (.inl hstack))
      · exact .inr (.inl hrest)
      · exact .inr (.inr (List.mem_cons_of_mem _ hvisited))
    · exact .inl (mem_pushUnseen_stack.mpr (.inr ⟨(mem_pushUnseen_seen.mp hb).resolve_left hbs, hbs⟩))
  · intro b hb c hc
    rcases List.mem_cons.mp hb with rfl | hb
    · exact mem_pushUnseen_seen.mpr (.inr hc)
    · exact mem_pushUnseen_seen.mpr (.inl (h.closed b hb c hc))

/-- **When nothing is left on the stack**, the nodes visited are those that can be reached. -/
theorem SearchInv.visited_iff (h : SearchInv next stop start [] seen visited) : a ∈ visited ↔ Reaches next stop start a := by
  have hcases : ∀ b ∈ seen, ¬stop b → b ∈ visited := by
    intro b hb hstop
    rcases h.seen_cases b hb with hstack | hb | hb
    · cases hstack
    · exact absurd hb hstop
    · exact hb
  constructor
  · exact h.sound a
  · intro hr
    induction hr with
    | start hstop => exact hcases _ h.start_seen hstop
    | next _ hb hstop ih => exact hcases _ (h.closed _ ih _ hb) hstop

end Search

end Pnacl.Lib
