import Mathlib.Control.Monad.Writer
import Pnacl.Lib.Fallible

/-!
# Computations that note their states

A fallible computation that also notes states on its way, in the order in which it comes to them. `Logs P x Q` is total
correctness with a promise for all notes: `x` returns, each note has `P`, and the result has `Q`. Without its notes a
computation is a plain one (`erase`), so a program that notes its stores can be compared with the program that does not.
-/

namespace Pnacl.Lib

section Logged

variable {ε μ α β : Type}

/-- A computation that may stop with a reason of `ε` and notes states of `μ`. -/
abbrev Logged (ε μ α : Type) : Type := WriterT (List μ) (Except ε) α

/-- Note a state. -/
def note (m : μ) : Logged ε μ Unit := WriterT.mk (.ok ((), [m]))

/-- Stop. -/
def stop (e : ε) : Logged ε μ α := WriterT.mk (.error e)

/-- The computation without its notes. -/
def erase (x : Logged ε μ α) : Except ε α := x.run.map Prod.fst

/-- The computation returns, all its notes have `P` and its result has `Q`. -/
def Logs (P : μ → Prop) (x : Logged ε μ α) (Q : α → Prop) : Prop :=
  ∃ a notes, x.run = .ok (a, notes) ∧ (∀ m ∈ notes, P m) ∧ Q a

theorem run_bind_ok {x : Logged ε μ α} {f : α → Logged ε μ β} {a : α} {b : β} {notes notes' : List μ}
    (hx : x.run = .ok (a, notes)) (hf : (f a).run = .ok (b, notes')) : (x >>= f).run = .ok (b, notes ++ notes') := by
  show (x.run >>= fun r => (fun s => (s.1, r.2 ++ s.2)) <$> (f r.1).run) = _
  rw [hx, ok_bind, hf]
  rfl

/-! ## Without the notes -/

theorem erase_of_run {x : Logged ε μ α} {a : α} {notes : List μ} (h : x.run = .ok (a, notes)) : erase x = .ok a := by
  rw [erase, h]
  rfl

@[simp] theorem erase_pure (a : α) : erase (pure a : Logged ε μ α) = .ok a := rfl

@[simp] theorem erase_note (m : μ) : erase (note m : Logged ε μ Unit) = .ok () := rfl

@[simp] theorem erase_stop (e : ε) : erase (stop e : Logged ε μ α) = .error e := rfl

@[simp] theorem erase_bind (x : Logged ε μ α) (f : α → Logged ε μ β) : erase (x >>= f) = erase x >>= fun a => erase (f a) := by
  show (x.run >>= fun r => (fun s => (s.1, r.2 ++ s.2)) <$> (f r.1).run).map Prod.fst = x.run.map Prod.fst >>= _
  cases x.run with
  | error e => rfl
  | ok r =>
    rw [ok_bind]
    show _ = (f r.1).run.map Prod.fst
    cases (f r.1).run <;> rfl

theorem erase_foldlM (f : β → α → Logged ε μ β) (l : List α) (b : β) :
    erase (l.foldlM f b) = l.foldlM (fun b a => erase (f b a)) b := by
  induction l generalizing b with
  | nil => rfl
  | cons a l ih =>
    rw [List.foldlM_cons, List.foldlM_cons, erase_bind]
    exact congrArg _ (funext fun b' => ih b')

/-! ## Rules -/

variable {P : μ → Prop} {Q : α → Prop} {R : β → Prop}

theorem Logs.pure {a : α} (h : Q a) : Logs P (pure a : Logged ε μ α) Q := ⟨a, [], rfl, by simp, h⟩

theorem Logs.note {m : μ} (h : P m) : Logs P (note m : Logged ε μ Unit) fun _ => True := ⟨(), [m], rfl, by simpa using h, trivial⟩

theorem Logs.bind {x : Logged ε μ α} {f : α → Logged ε μ β} (hx : Logs P x Q) (hf : ∀ a, Q a → Logs P (f a) R) :
    Logs P (x >>= f) R := by
  obtain ⟨a, notes, hrun, hnotes, hq⟩ := hx
  obtain ⟨b, notes', hrun', hnotes', hr⟩ := hf a hq
  refine ⟨b, notes ++ notes', run_bind_ok hrun hrun', fun m hm => ?_, hr⟩
  exact (List.mem_append.mp hm).elim (hnotes m) (hnotes' m)

theorem Logs.mono {Q' : α → Prop} {x : Logged ε μ α} (hx : Logs P x Q) (h : ∀ a, Q a → Q' a) : Logs P x Q' := by
  obtain ⟨a, notes, hrun, hnotes, hq⟩ := hx
  exact ⟨a, notes, hrun, hnotes, h a hq⟩

/-- A loop keeps its invariant. -/
theorem Logs.foldlM {I : β → Prop} {f : β → α → Logged ε μ β} {l : List α} {b : β}
    (hf : ∀ b, ∀ a ∈ l, I b → Logs P (f b a) I) (hb : I b) : Logs P (l.foldlM f b) I := by
  induction l generalizing b with
  | nil => exact .pure hb
  | cons a l ih =>
    rw [List.foldlM_cons]
    refine (hf b a List.mem_cons_self hb).bind fun b' hb' => ?_
    exact ih (fun b a' ha' => hf b a' (List.mem_cons_of_mem _ ha')) hb'

end Logged

end Pnacl.Lib
