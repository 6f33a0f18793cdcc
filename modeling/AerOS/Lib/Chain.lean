import Mathlib.Algebra.Order.Ring.Int
import Mathlib.Data.List.Basic

/-!
# Chains of nodes, numbered from one and ended by zero
-/

namespace AerOS.Lib

def Chain (next : Nat → Nat) : Nat → List Nat → Nat → Prop
  | a, [], b => a = b
  | a, x :: xs, b => a = x ∧ x ≠ 0 ∧ Chain next (next x) xs b

variable {next next' : Nat → Nat} {a b c x : Nat} {xs ys : List Nat}

@[simp] theorem chain_nil : Chain next a [] b ↔ a = b := Iff.rfl

@[simp] theorem chain_cons : Chain next a (x :: xs) b ↔ a = x ∧ x ≠ 0 ∧ Chain next (next x) xs b := Iff.rfl

theorem chain_append : Chain next a (xs ++ ys) c ↔ ∃ b, Chain next a xs b ∧ Chain next b ys c := by
  induction xs generalizing a with
  | nil => simp
  | cons x xs ih =>
    simp only [List.cons_append, chain_cons, ih]
    constructor
    · rintro ⟨rfl, nonzero, b, first, second⟩
      exact ⟨b, ⟨rfl, nonzero, first⟩, second⟩
    rintro ⟨b, ⟨rfl, nonzero, first⟩, second⟩
    exact ⟨rfl, nonzero, b, first, second⟩

theorem chain_concat : Chain next a (xs ++ [x]) b ↔ Chain next a xs x ∧ x ≠ 0 ∧ next x = b := by
  rw [chain_append]
  constructor
  · rintro ⟨y, first, rfl, nonzero, last⟩
    exact ⟨first, nonzero, last⟩
  rintro ⟨first, nonzero, last⟩
  exact ⟨x, first, rfl, nonzero, last⟩

theorem Chain.congr (chain : Chain next a xs b) (h : ∀ x ∈ xs, next' x = next x) : Chain next' a xs b := by
  induction xs generalizing a with
  | nil => exact chain
  | cons x xs ih =>
    obtain ⟨rfl, nonzero, rest⟩ := chain
    refine ⟨rfl, nonzero, ?_⟩
    rw [h a List.mem_cons_self]
    exact ih rest fun y mem => h y (List.mem_cons_of_mem a mem)

theorem Chain.start_eq_zero (chain : Chain next a xs 0) : a = 0 ↔ xs = [] := by
  cases xs with
  | nil => simp [chain_nil.mp chain]
  | cons x xs =>
    obtain ⟨rfl, nonzero, -⟩ := chain
    simp [nonzero]

theorem Chain.start_eq (chain : Chain next a xs 0) : a = xs.headD 0 := by
  cases xs with
  | nil => exact chain
  | cons x xs => exact chain.1

theorem Chain.redirect (chain : Chain next a (xs ++ [x]) b) (same : ∀ y ∈ xs, next' y = next y)
    (last : next' x = c) : Chain next' a (xs ++ [x]) c := by
  obtain ⟨first, nonzero, -⟩ := chain_concat.mp chain
  exact chain_concat.mpr ⟨first.congr same, nonzero, last⟩

section Doubly
open Function List

/-- From `a`, `next` passes through the nodes `xs` and comes to `b`, and `previous` goes back from each
of them to the one before, from the first to `before`. -/
def Doubly (next previous : Nat → Nat) : Nat → Nat → List Nat → Nat → Prop
  | _, a, [], b => a = b
  | before, a, x :: xs, b => a = x ∧ x ≠ 0 ∧ previous x = before ∧ Doubly next previous x (next x) xs b

variable {previous previous' : Nat → Nat} {before n : Nat}

@[simp] theorem doubly_nil : Doubly next previous before a [] b ↔ a = b := Iff.rfl

@[simp] theorem doubly_cons : Doubly next previous before a (x :: xs) b ↔
      a = x ∧ x ≠ 0 ∧ previous x = before ∧ Doubly next previous x (next x) xs b := Iff.rfl

theorem Doubly.chain (h : Doubly next previous before a xs b) : Chain next a xs b := by
  induction xs generalizing before a with
  | nil => exact h
  | cons x xs ih => exact ⟨h.1, h.2.1, ih h.2.2.2⟩

theorem Doubly.congr (h : Doubly next previous before a xs b) (sameNext : ∀ x ∈ xs, next' x = next x)
    (samePrevious : ∀ x ∈ xs, previous' x = previous x) : Doubly next' previous' before a xs b := by
  induction xs generalizing before a with
  | nil => exact h
  | cons x xs ih =>
    obtain ⟨rfl, nonzero, back, rest⟩ := h
    refine ⟨rfl, nonzero, (samePrevious a mem_cons_self).trans back, ?_⟩
    rw [sameNext a mem_cons_self]
    exact ih rest (fun y mem => sameNext y (mem_cons_of_mem a mem))
      (fun y mem => samePrevious y (mem_cons_of_mem a mem))

theorem doubly_append : Doubly next previous before a (xs ++ ys) c ↔
      ∃ b, Doubly next previous before a xs b ∧ Doubly next previous (xs.getLastD before) b ys c := by
  induction xs generalizing before a with
  | nil => simp
  | cons x xs ih =>
    simp only [cons_append, doubly_cons, ih, getLastD_cons]
    constructor
    · rintro ⟨rfl, nonzero, back, b, first, second⟩
      exact ⟨b, ⟨rfl, nonzero, back, first⟩, second⟩
    rintro ⟨b, ⟨rfl, nonzero, back, first⟩, second⟩
    exact ⟨rfl, nonzero, back, b, first, second⟩

theorem Doubly.rehead (h : Doubly next previous before a xs 0) (nodup : xs.Nodup) (n : Nat) :
    Doubly next (if a = 0 then previous else update previous a n) n a xs 0 := by
  cases xs with
  | nil => exact h
  | cons x xs =>
    obtain ⟨rfl, nonzero, -, rest⟩ := h
    rw [if_neg nonzero]
    refine ⟨rfl, nonzero, update_self _ _ _, rest.congr (fun _ _ => rfl) fun y mem => ?_⟩
    have other : y ≠ a := by
      rintro rfl
      exact (nodup_cons.mp nodup).1 mem
    exact update_of_ne other _ _

theorem Doubly.link (h : Doubly next previous 0 a xs 0) (nodup : (n :: xs).Nodup) (nonzero : n ≠ 0) :
    Doubly (update next n a)
      (update (if a = 0 then previous else update previous a n) n 0) 0 n (n :: xs) 0 := by
  obtain ⟨fresh, rest⟩ := nodup_cons.mp nodup
  refine ⟨rfl, nonzero, update_self _ _ _, ?_⟩
  rw [update_self]
  have other : ∀ y ∈ xs, y ≠ n := fun y mem same => fresh (same ▸ mem)
  exact (h.rehead rest n).congr (fun y mem => update_of_ne (other y mem) _ _)
    (fun y mem => update_of_ne (other y mem) _ _)

theorem Doubly.unlink (h : Doubly next previous 0 a (xs ++ n :: ys) 0) (nodup : (xs ++ n :: ys).Nodup) :
    Doubly (if previous n = 0 then next else update next (previous n) (next n))
      (if next n = 0 then previous else update previous (next n) (previous n)) 0
      (if previous n = 0 then next n else a) (xs ++ ys) 0 := by
  obtain ⟨b, first, rfl, _, back, rest⟩ := doubly_append.mp h
  obtain ⟨nodupXs, nodupRest, apart⟩ := nodup_append.mp nodup
  have nodupYs := (nodup_cons.mp nodupRest).2
  have head : next b ≠ 0 → next b ∈ ys := by
    intro some_node
    cases ys with
    | nil => exact absurd rest some_node
    | cons y ys =>
      rw [rest.1]
      exact mem_cons_self
  rcases eq_nil_or_concat xs with rfl | ⟨front, q, rfl⟩
  · have here : previous b = 0 := back
    rw [here, if_pos rfl, if_pos rfl, nil_append]
    exact rest.rehead nodupYs 0
  rw [concat_eq_append] at *
  have here : previous b = q := by simpa using back
  obtain ⟨c, earlier, rfl, nonzeroQ, backQ, -⟩ := doubly_append.mp first
  rw [here, if_neg nonzeroQ, if_neg nonzeroQ]
  have inFront : ∀ y ∈ front ++ [c], (if next b = 0 then previous else
      update previous (next b) c) y = previous y := by
    intro y mem
    split
    · rfl
    next some_node =>
    apply update_of_ne
    rintro rfl
    exact apart _ mem _ (mem_cons_of_mem b (head some_node)) rfl
  have otherNode : ∀ y ∈ front, y ≠ c := by
    rintro y mem rfl
    exact (nodup_append.mp nodupXs).2.2 y mem y mem_cons_self rfl
  refine doubly_append.mpr ⟨next b, doubly_append.mpr ⟨c, ?_, rfl, nonzeroQ, ?_, ?_⟩, ?_⟩
  · exact earlier.congr (fun y mem => update_of_ne (otherNode y mem) _ _)
      (fun y mem => inFront y (mem_append_left _ mem))
  · rw [inFront c (by simp)]
    exact backQ
  · exact update_self _ _ _
  have onward := rest.rehead nodupYs c
  rw [getLastD_concat]
  refine onward.congr (fun y mem => update_of_ne ?_ _ _) fun _ _ => rfl
  rintro rfl
  exact apart y (by simp) y (mem_cons_of_mem b mem) rfl

end Doubly

end AerOS.Lib
