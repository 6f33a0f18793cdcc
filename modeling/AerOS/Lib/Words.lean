import Mathlib.Algebra.Order.Ring.Int
import Mathlib.Data.Nat.Bitwise
import Mathlib.Data.Nat.Size

/-!
# Unsigned 64-bit arithmetic
-/

namespace AerOS.Lib

variable {a b c x k : Nat}

def checkedMul (a b : Nat) : Option Nat := if a * b < 2 ^ 64 then some (a * b) else none

def checkedAdd (a b : Nat) : Option Nat := if a + b < 2 ^ 64 then some (a + b) else none

def checkedSub (a b : Nat) : Option Nat := if b ≤ a then some (a - b) else none

def saturatingAdd (a b : Nat) : Nat := min (a + b) (2 ^ 64 - 1)

def complement (a : Nat) : Nat := 2 ^ 64 - 1 - a

def alignUp (value alignment : Nat) : Nat :=
  saturatingAdd value (alignment - 1) &&& complement (alignment - 1)

def alignDown (value alignment : Nat) : Nat := value &&& complement (alignment - 1)

def isPowerOfTwo (n : Nat) : Bool := decide (n ≠ 0) && decide (2 ^ n.log2 = n)

theorem checkedMul_eq_some : checkedMul a b = some c ↔ a * b < 2 ^ 64 ∧ a * b = c := by
  unfold checkedMul
  split <;> simp_all

theorem checkedAdd_eq_some : checkedAdd a b = some c ↔ a + b < 2 ^ 64 ∧ a + b = c := by
  unfold checkedAdd
  split <;> simp_all

theorem checkedSub_eq_some : checkedSub a b = some c ↔ b ≤ a ∧ a - b = c := by
  unfold checkedSub
  split <;> simp_all

theorem saturatingAdd_of_lt (h : a + b < 2 ^ 64) : saturatingAdd a b = a + b :=
  Nat.min_eq_left (Nat.le_sub_one_of_lt h)

theorem isPowerOfTwo_iff {n : Nat} : isPowerOfTwo n = true ↔ ∃ k, n = 2 ^ k := by
  unfold isPowerOfTwo
  simp only [Bool.and_eq_true, decide_eq_true_eq]
  constructor
  · rintro ⟨-, h⟩
    exact ⟨n.log2, h.symm⟩
  rintro ⟨k, rfl⟩
  exact ⟨Nat.pos_iff_ne_zero.mp (Nat.two_pow_pos k), by rw [Nat.log2_two_pow]⟩

theorem alignDown_eq (hx : x < 2 ^ 64) (hk : k ≤ 64) : alignDown x (2 ^ k) = x / 2 ^ k * 2 ^ k := by
  have low : 2 ^ k - 1 < 2 ^ 64 := by
    have := Nat.pow_le_pow_right (n := 2) (by decide) hk
    have := Nat.two_pow_pos k
    omega
  apply Nat.eq_of_testBit_eq
  intro i
  have mask : complement (2 ^ k - 1) = 2 ^ 64 - (2 ^ k - 1 + 1) := by
    unfold complement
    omega
  have shifted : x / 2 ^ k * 2 ^ k = (x >>> k) <<< k := by
    rw [Nat.shiftLeft_eq, Nat.shiftRight_eq_div_pow]
  rw [alignDown, mask, shifted, Nat.testBit_and, Nat.testBit_two_pow_sub_succ low,
    Nat.testBit_two_pow_sub_one, Nat.testBit_shiftLeft, Nat.testBit_shiftRight]
  by_cases above : 64 ≤ i
  · have zero : x.testBit i = false :=
      Nat.testBit_lt_two_pow (hx.trans_le (Nat.pow_le_pow_right (by decide) above))
    rw [zero, Bool.false_and]
    by_cases high : k ≤ i
    · rw [Nat.add_sub_cancel' high, zero, Bool.and_false]
    · simp [high]
  by_cases high : k ≤ i
  · rw [Nat.add_sub_cancel' high]
    simp [high, not_le.mp above]
  · simp [high, not_le.mp high]

theorem alignDown_spec (hx : x < 2 ^ 64) (hk : k ≤ 64) :
    2 ^ k ∣ alignDown x (2 ^ k) ∧ alignDown x (2 ^ k) ≤ x ∧ x < alignDown x (2 ^ k) + 2 ^ k := by
  rw [alignDown_eq hx hk]
  refine ⟨Nat.dvd_mul_left _ _, Nat.div_mul_le_self x _, ?_⟩
  have split := Nat.div_add_mod x (2 ^ k)
  rw [Nat.mul_comm] at split
  omega

theorem alignUp_eq_alignDown (value alignment : Nat) :
    alignUp value alignment = alignDown (saturatingAdd value (alignment - 1)) alignment := rfl

theorem alignUp_spec (hx : x + (2 ^ k - 1) < 2 ^ 64) (hk : k ≤ 64) :
    2 ^ k ∣ alignUp x (2 ^ k) ∧ x ≤ alignUp x (2 ^ k) ∧ alignUp x (2 ^ k) < x + 2 ^ k := by
  rw [alignUp_eq_alignDown, saturatingAdd_of_lt hx]
  obtain ⟨aligned, _, _⟩ := alignDown_spec hx hk
  exact ⟨aligned, by omega, by omega⟩

theorem and_low_eq_zero : x &&& (2 ^ k - 1) = 0 ↔ 2 ^ k ∣ x := by
  rw [Nat.and_two_pow_sub_one_eq_mod]
  exact (Nat.dvd_iff_mod_eq_zero).symm

end AerOS.Lib
