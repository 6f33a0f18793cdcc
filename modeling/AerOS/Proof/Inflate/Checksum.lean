import AerOS.Spec.Inflate
import Mathlib.Tactic.Linarith

namespace AerOS.Proof.Inflate
open AerOS.Inflate List

theorem adlerByte_foldl (data : List UInt8) (a b : Nat)
    (fits : 2 * b + data.length * (2 * a + 255 * (data.length + 1)) < 2 ^ 33) :
    ∃ a' b', data.foldl adlerByte (.ok (a, b)) = .ok (a', b') ∧
      (a' % 65521, b' % 65521) = data.foldl adlerPlain (a % 65521, b % 65521) := by
  induction data generalizing a b with
  | nil => exact ⟨a, b, rfl, rfl⟩
  | cons byte data ih =>
    have small := byte.toNat_lt
    rw [length_cons] at fits
    obtain ⟨a', b', ends, plain⟩ := ih (a + byte.toNat) (b + (a + byte.toNat)) (by nlinarith)
    refine ⟨a', b', ?_, ?_⟩
    · rw [← ends, foldl_cons]
      congr 1
      exact if_pos (by nlinarith)
    · rw [plain, foldl_cons, adlerPlain]
      congr 2
      all_goals omega

theorem adlerChunks_eq (turns : Nat) (data : List UInt8) (a b : Nat) (enough : data.length ≤ turns)
    (smallA : a < 65521) (smallB : b < 65521) :
    adlerChunks turns data (a, b) = .ok (data.foldl adlerPlain (a, b)) := by
  induction turns generalizing data a b with
  | zero =>
    rw [eq_nil_of_length_eq_zero (Nat.le_zero.mp enough)]
    rfl
  | succ turns ih =>
    unfold adlerChunks
    split
    next nothing =>
      rw [nothing]
      rfl
    have short : (data.take 5552).length ≤ 5552 := length_take_le _ _
    obtain ⟨a', b', ends, plain⟩ := adlerByte_foldl (data.take 5552) a b (by nlinarith)
    rw [Nat.mod_eq_of_lt smallA, Nat.mod_eq_of_lt smallB] at plain
    rw [ends]
    change adlerChunks turns (data.drop 5552) (a' % 65521, b' % 65521) = _
    rw [ih _ _ _ (by grind) (Nat.mod_lt _ (by decide)) (Nat.mod_lt _ (by decide)), plain, ← foldl_append,
      take_append_drop]

/-- No sum overflows before it is reduced, and to reduce once in 5552 bytes gives the same as after every one. -/
theorem adler32_eq (data : List UInt8) :
    adler32 data = .ok ((data.foldl adlerPlain (1, 0)).2 * 2 ^ 16 + (data.foldl adlerPlain (1, 0)).1) := by
  rw [adler32, adlerChunks_eq data.length data 1 0 le_rfl (by decide) (by decide)]
  rfl

end AerOS.Proof.Inflate
