import Mathlib.Algebra.Order.Ring.Int
import Mathlib.Data.List.Basic

/-!
# Runs of a state machine

`Along` asks for a guard at every step of a run, `Throughout` for a property of every state it passes through.
-/

namespace AerOS.Lib.Run
variable {σ α : Type} (step : σ → α → σ)
variable {s : σ} {xs : List α} {Q : σ → α → Prop}

def final (s : σ) (labels : List α) : σ := labels.foldl step s

def Along (guard : σ → α → Prop) : σ → List α → Prop
  | _, [] => True
  | s, x :: xs => guard s x ∧ Along guard (step s x) xs

def Throughout (P : σ → Prop) : σ → List α → Prop
  | s, [] => P s
  | s, x :: xs => P s ∧ Throughout P (step s x) xs

theorem final_concat (s : σ) (xs : List α) (x : α) : final step s (xs ++ [x]) = step (final step s xs) x := by
  simp [final]

theorem final_append (s : σ) (xs ys : List α) :
    final step s (xs ++ ys) = final step (final step s xs) ys := by
  simp [final]

variable {step} {inv P : σ → Prop} {guard : σ → α → Prop}

theorem along_append {ys : List α} :
    Along step guard s (xs ++ ys) ↔ Along step guard s xs ∧ Along step guard (final step s xs) ys := by
  induction xs generalizing s with
  | nil => simp [Along, final]
  | cons x xs ih => simp [Along, final, ih, and_assoc]

theorem throughout_of_along (hstep : ∀ s x, inv s → guard s x → inv (step s x))
    (hP : ∀ s, inv s → P s) (h : inv s) (hg : Along step guard s xs) : Throughout step P s xs := by
  induction xs generalizing s with
  | nil => exact hP s h
  | cons x xs ih => exact ⟨hP s h, ih (hstep s x h hg.1) hg.2⟩

theorem throughout_of_inv (hstep : ∀ s x, inv s → inv (step s x)) (hP : ∀ s, inv s → P s) (xs : List α)
    (h : inv s) : Throughout step P s xs := by
  induction xs generalizing s with
  | nil => exact hP s h
  | cons x xs ih => exact ⟨hP s h, ih (hstep s x h)⟩

theorem along_of_along (hstep : ∀ s x, inv s → guard s x → inv (step s x))
    (hQ : ∀ s x, inv s → guard s x → Q s x) (h : inv s) (hg : Along step guard s xs) : Along step Q s xs := by
  induction xs generalizing s with
  | nil => trivial
  | cons x xs ih => exact ⟨hQ s x h hg.1, ih (hstep s x h hg.1) hg.2⟩

theorem along_of_inv (hstep : ∀ s x, inv s → inv (step s x)) (hQ : ∀ s x, inv s → Q s x)
    (xs : List α) (h : inv s) : Along step Q s xs := by
  induction xs generalizing s with
  | nil => trivial
  | cons x xs ih => exact ⟨hQ s x h, ih (hstep s x h)⟩

theorem final_of_throughout (ys : List α) (h : Throughout step P s (xs ++ ys)) : P (final step s xs) := by
  induction xs generalizing s with
  | nil =>
    cases ys with
    | nil => exact h
    | cons => exact h.1
  | cons x xs ih => exact ih h.2

theorem final_of_along (hstep : ∀ s x, inv s → guard s x → inv (step s x))
    (h : inv s) (hg : Along step guard s xs) : inv (final step s xs) := by
  induction xs generalizing s with
  | nil => exact h
  | cons x xs ih => exact ih (hstep s x h hg.1) hg.2

theorem final_invariant (hstep : ∀ s x, inv s → inv (step s x)) (xs : List α)
    (h : inv s) : inv (final step s xs) := by
  induction xs generalizing s with
  | nil => exact h
  | cons x xs ih => exact ih (hstep s x h)

theorem throughout_iff_along_of_inv (hP : ∀ s, inv s → P s)
    (hstep : ∀ s x, inv s → guard s x → inv (step s x))
    (hbad : ∀ s x, inv s → ¬ guard s x → ¬ P (step s x)) (xs : List α) (h : inv s) :
    Throughout step P s xs ↔ Along step guard s xs := by
  refine ⟨fun ht => ?_, throughout_of_along hstep hP h⟩
  induction xs generalizing s with
  | nil => trivial
  | cons x xs ih =>
    have next : P (step s x) := by
      cases xs with
      | nil => exact ht.2
      | cons => exact ht.2.1
    have met : guard s x := by
      by_contra fails
      exact hbad s x h fails next
    exact ⟨met, ih (hstep s x h met) ht.2⟩

theorem throughout_iff_along (hinv : ∀ s x, inv s → inv (step s x))
    (hstep : ∀ s x, inv s → P s → (P (step s x) ↔ guard s x)) (xs : List α)
    (h : inv s) (hs : P s) : Throughout step P s xs ↔ Along step guard s xs := by
  have both : ∀ s x, inv s ∧ P s → guard s x → inv (step s x) ∧ P (step s x) :=
    fun s x ⟨h, hs⟩ hg => ⟨hinv s x h, (hstep s x h hs).mpr hg⟩
  exact throughout_iff_along_of_inv (fun _ h => h.2) both
    (fun s x ⟨h, hs⟩ fails next => fails ((hstep s x h hs).mp next)) xs ⟨h, hs⟩

end AerOS.Lib.Run
