import Mathlib.Algebra.Order.Group.Multiset
import Mathlib.Algebra.Order.Ring.Int
import Mathlib.Data.List.FinRange

/-!
# Tables of slots

What a table holds is a multiset: which slot an entry sits in does not matter.
-/

namespace AerOS.Lib.Slots
open Multiset
variable {α : Type} {n : Nat} (used : α → Bool)
variable {table : Vector α n} {x : α} {slot : Fin n} {r : α → α → Prop} {m : Multiset α}

def bag (table : Vector α n) : Multiset α := Multiset.ofList (table.toList.filter used)

def freeSlot (table : Vector α n) : Option (Fin n) := (List.finRange n).find? fun slot => !used table[slot]

theorem mem_bag : x ∈ bag used table ↔ used x = true ∧ ∃ slot : Fin n, table[slot] = x := by
  simp only [bag, mem_coe, List.mem_filter, Vector.mem_toList_iff, Vector.mem_iff_getElem]
  constructor
  · rintro ⟨⟨i, hi, eq⟩, hx⟩
    exact ⟨hx, ⟨i, hi⟩, eq⟩
  rintro ⟨hx, slot, eq⟩
  exact ⟨⟨slot, slot.isLt, eq⟩, hx⟩

private theorem filter_split (l : List α) (i : Nat) (hi : i < l.length) :
    l.filter used = (l.take i).filter used ++ ([l[i]].filter used ++ (l.drop (i + 1)).filter used) := by
  rw [← List.filter_append, ← List.filter_append, List.singleton_append, List.getElem_cons_drop, List.take_append_drop]

theorem bag_set (table : Vector α n) (slot : Fin n) :
    ∃ rest : Multiset α, ∀ x, bag used (table.set slot x) = (if used x then {x} else 0) + rest := by
  refine ⟨ofList ((table.toList.take slot).filter used) +
    ofList ((table.toList.drop (slot + 1)).filter used), fun x => ?_⟩
  rw [bag, Vector.toList_set, filter_split used _ slot.val (by simp)]
  rw [List.getElem_set_self, List.take_set_of_le le_rfl, List.drop_set_of_lt (Nat.lt_succ_self _)]
  simp only [← coe_add]
  rw [add_left_comm]
  congr 1
  by_cases hx : used x <;> simp [hx]

theorem bag_set_self (table : Vector α n) (slot : Fin n) : table.set slot table[slot] = table := by
  simp

theorem bag_fill (free : used table[slot] = false)
    (hx : used x = true) : bag used (table.set slot x) = x ::ₘ bag used table := by
  obtain ⟨_, h⟩ := bag_set used table slot
  have before := h table[slot]
  rw [bag_set_self, free] at before
  rw [h x, hx, before]
  simp

theorem bag_clear (full : used table[slot] = true)
    (hx : used x = false) : bag used table = table[slot] ::ₘ bag used (table.set slot x) := by
  obtain ⟨_, h⟩ := bag_set used table slot
  have before := h table[slot]
  rw [bag_set_self, full] at before
  rw [h x, hx, before]
  simp

theorem freeSlot_some (h : freeSlot used table = some slot) : used table[slot] = false := by
  have := List.find?_some h
  simpa using this

theorem card_bag_le (table : Vector α n) : (bag used table).card ≤ n := by
  simpa [bag] using List.length_filter_le used table.toList

theorem freeSlot_isSome_iff : (freeSlot used table).isSome ↔ (bag used table).card < n := by
  constructor
  · intro h
    obtain ⟨slot, hs⟩ := Option.isSome_iff_exists.mp h
    refine lt_of_le_of_ne (card_bag_le used table) fun full => ?_
    have all : ∀ x ∈ table.toList, used x = true := by
      rw [← List.length_filter_eq_length_iff]
      simpa [bag] using full
    have := all table[slot] (by simp)
    rw [freeSlot_some used hs] at this
    exact Bool.false_ne_true this
  · intro h
    by_contra none
    have all : ∀ x ∈ table.toList, used x = true := by
      intro x hx
      obtain ⟨i, hi, rfl⟩ := Vector.mem_iff_getElem.mp (Vector.mem_toList_iff.mp hx)
      simpa using List.find?_eq_none.mp (Option.not_isSome_iff_eq_none.mp none) ⟨i, hi⟩ (List.mem_finRange _)
    rw [← List.length_filter_eq_length_iff] at all
    simp [bag, all] at h

theorem card_bag_add_free (table : Vector α n) :
    (bag used table).card + (table.toList.filter fun x => !used x).length = n := by
  have := List.length_eq_length_filter_add (l := table.toList) used
  simpa [bag] using this.symm

theorem bag_map_clear (p : α → Bool) (empty : α) (hempty : used empty = false) (table : Vector α n) :
    bag used (table.map fun x => if p x then empty else x) =
      (bag used table).filter fun x => p x = false := by
  rw [bag, bag, Vector.toList_map, Multiset.filter_coe]
  congr 1
  induction table.toList with
  | nil => rfl
  | cons x _ ih =>
    simp only [List.map_cons, List.filter_cons, ih]
    by_cases hp : p x <;> by_cases hx : used x <;> simp [hp, hx, hempty]

theorem pairwise_filter [Std.Symm r] (p : α → Prop)
    [DecidablePred p] (h : Multiset.Pairwise r m) : Multiset.Pairwise r (m.filter p) := by
  induction m using Quot.inductionOn with
  | h l =>
    change Multiset.Pairwise r ((l.filter p : List α) : Multiset α)
    rw [pairwise_coe_iff_pairwise]
    exact (pairwise_coe_iff_pairwise.mp h).filter _

theorem pairwise_cons [Std.Symm r] {a : α} :
    Multiset.Pairwise r (a ::ₘ m) ↔ (∀ b ∈ m, r a b) ∧ Multiset.Pairwise r m := by
  induction m using Quot.inductionOn with
  | h l =>
    change Multiset.Pairwise r ((a :: l : List α) : Multiset α) ↔ _ ∧ Multiset.Pairwise r (l : Multiset α)
    rw [Multiset.pairwise_coe_iff_pairwise, Multiset.pairwise_coe_iff_pairwise, List.pairwise_cons]
    rfl

theorem pairwise_bag [Std.Symm r] : Multiset.Pairwise r (bag used table) ↔
      ∀ i j : Fin n, i ≠ j → used table[i] = true → used table[j] = true → r table[i] table[j] := by
  rw [bag, Multiset.pairwise_coe_iff_pairwise, List.pairwise_filter, List.pairwise_iff_getElem]
  constructor
  · intro h i j ne hi hj
    rcases Nat.lt_or_gt_of_ne (Fin.val_ne_of_ne ne) with lt | gt
    · exact h i j (by simp) (by simp) lt hi hj
    · exact Std.Symm.symm _ _ (h j i (by simp) (by simp) gt hj hi)
  · intro h i j hi hj lt ui uj
    exact h ⟨i, by simpa using hi⟩ ⟨j, by simpa using hj⟩ (by simp; omega) ui uj

end AerOS.Lib.Slots
