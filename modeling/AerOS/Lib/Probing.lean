import Mathlib.Algebra.BigOperators.Fin
import Mathlib.Algebra.Order.BigOperators.Group.Finset
import Mathlib.Logic.Equiv.Basic

/-!
# Linear probing without tombstones

A table is seen as the home of the entry in each slot, `none` for an empty one. When an entry is taken out,
the entries after it that were put past their home may have to move up into the hole.
-/

namespace AerOS.Lib.Probing
open Function Equiv

variable {n : Nat} {t : Fin n → Option (Fin n)} {hole index : Fin n} {home i j : Fin n}

/-- The number of steps from slot `a` forward to slot `b`. -/
def gap (a b : Fin n) : Nat := if a ≤ b then b.val - a else n + b - a

def next (a : Fin n) : Fin n := ⟨(a + 1) % n, Nat.mod_lt _ a.pos⟩

theorem gap_lt (a b : Fin n) : gap a b < n := by
  unfold gap
  split <;> omega

theorem gap_inj {a : Fin n} (same : gap a i = gap a j) : i = j := by
  unfold gap at same
  split at same <;> split at same <;> omega

@[simp] theorem gap_self (a : Fin n) : gap a a = 0 := by simp [gap]

theorem next_val (a : Fin n) : (next a).val = if a.val + 1 = n then 0 else a.val + 1 := by
  unfold next
  split
  case isTrue last => simp [last]
  case isFalse => exact Nat.mod_eq_of_lt (by omega)

theorem gap_next {a : Fin n} (apart : next i ≠ a) : gap a (next i) = gap a i + 1 := by
  have := next_val i
  unfold gap
  split at this <;> split <;> split <;> omega

theorem gap_last (i : Fin n) : gap (next i) i + 1 = n := by
  have := next_val i
  unfold gap
  split at this <;> split <;> omega

/-- Every slot on the way of an entry is taken. -/
def Reached (t : Fin n → Option (Fin n)) : Prop :=
  ∀ i home, t i = some home → ∀ j, gap home j < gap home i → t j ≠ none

theorem Reached.insert (reached : Reached t)
    (way : ∀ j, gap home j < gap home i → t j ≠ none) : Reached (update t i (some home)) := by
  intro k other full j before
  by_cases same : j = i
  · simp [same]
  rw [update_of_ne same]
  by_cases new : k = i
  · grind [way j]
  · rw [update_of_ne new] at full
    exact reached k other full j before

/-- Half-way through closing the hole: it is the only gap in the ways of the entries, and not in those of the
entries up to `index`. -/
structure Closing (t : Fin n → Option (Fin n)) (hole index : Fin n) : Prop where
  empty : t hole = none
  reached : ∀ i home, t i = some home → ∀ j, gap home j < gap home i → t j ≠ none ∨ j = hole
  passed : ∀ i home, t i = some home → gap hole i ≤ gap hole index → gap home i < gap home hole

theorem Closing.start (reached : Reached t) : Closing (update t hole none) hole hole where
  empty := update_self _ _ _
  reached := by
    intro i home full j before
    have apart : i ≠ hole := by grind
    rw [update_of_ne apart] at full
    by_cases same : j = hole
    · exact .inr same
    · rw [update_of_ne same]
      exact .inl (reached i home full j before)
  passed := by
    intro i home full near
    rw [gap_self, Nat.le_zero, ← gap_self hole] at near
    rw [gap_inj near, update_self] at full
    cases full

theorem Closing.closed (h : Closing t hole index) (last : t (next index) = none) : Reached t := by
  intro i home full j before
  rcases h.reached i home full j before with taken | rfl
  · exact taken
  -- The way of the entry goes on from the hole to the slot after `index`, which is empty.
  have far : gap j index < gap j i := by
    by_contra near
    have := h.passed i home full (by omega)
    omega
  have apart : next index ≠ j := by
    intro same
    have := next_val index
    have := gap_lt j i
    unfold gap at *
    grind
  have := gap_next apart
  have other : i ≠ next index := by grind
  have between : gap home (next index) < gap home i := by
    unfold gap at *
    grind
  rcases h.reached i home full _ between with taken | same
  · exact absurd last taken
  · exact absurd same apart

theorem Closing.stays (h : Closing t hole index) (full : t (next index) = some home)
    (stays : gap home (next index) < gap home hole) : Closing t hole (next index) where
  empty := h.empty
  reached := h.reached
  passed := by
    intro i other fullI near
    by_cases same : i = next index
    · grind
    · refine h.passed i other fullI ?_
      have apart : next index ≠ hole := by grind [h.empty]
      have := gap_next apart
      have : gap hole i ≠ gap hole (next index) := fun eq => same (gap_inj eq)
      omega

theorem Closing.moved (h : Closing t hole index) (full : t (next index) = some home)
    (past : gap home hole < gap home (next index)) :
    Closing (t ∘ swap hole (next index)) (next index) (next index) := by
  have apart : next index ≠ hole := by grind [h.empty]
  have moved : (t ∘ swap hole (next index)) hole = some home := by simp [full]
  have left : (t ∘ swap hole (next index)) (next index) = none := by simp [h.empty]
  have same : ∀ i, i ≠ hole → i ≠ next index → (t ∘ swap hole (next index)) i = t i := fun i neHole neIndex => by
    simp [swap_apply_of_ne_of_ne neHole neIndex]
  refine ⟨left, fun i other fullI j before => ?_, fun i other fullI near => ?_⟩
  · by_cases hi : i = hole
    · grind [h.reached (next index) home full j]
    · grind [h.reached i other]
  · rw [gap_self, Nat.le_zero, ← gap_self (next index)] at near
    grind [gap_inj near]

def weight (t : Fin n → Option (Fin n)) : Nat := ∑ i, (t i).elim 0 fun home => gap home i

theorem weight_swap_lt (empty : t hole = none) (full : t i = some home) (past : gap home hole < gap home i) :
    weight (t ∘ swap hole i) < weight t := by
  have reindexed : weight (t ∘ swap hole i) = ∑ j, (t j).elim 0 fun home => gap home (swap hole i j) := by
    rw [weight, ← Equiv.sum_comp (swap hole i)]
    simp
  rw [reindexed]
  refine Finset.sum_lt_sum (fun j _ => ?_) ⟨i, Finset.mem_univ i, by simpa [full] using past⟩
  by_cases same : j = i
  · simpa [same, full] using past.le
  by_cases other : j = hole
  · simp [other, empty]
  · rw [swap_apply_of_ne_of_ne other same]

theorem weight_le (t : Fin n → Option (Fin n)) : weight t ≤ n * n := by
  refine (Finset.sum_le_card_nsmul _ _ n fun i _ => ?_).trans_eq (by simp)
  cases t i with
  | none => exact Nat.zero_le n
  | some home => exact (gap_lt home i).le

end AerOS.Lib.Probing
