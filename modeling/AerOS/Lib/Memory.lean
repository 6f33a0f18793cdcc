import AerOS.Lib.Bytes

/-!
# Byte-addressed memory, with words of eight bytes
-/

namespace AerOS.Lib

variable {a v x n b : Nat} {byte : UInt8}
variable {m : Memory}

abbrev Memory := Nat → UInt8

namespace Memory

def load (m : Memory) (a : Nat) : Nat := ofLe ((List.range 8).map fun i => m (a + i))

def store (m : Memory) (a v : Nat) : Memory := fun x =>
  if a ≤ x ∧ x < a + 8 then (leBytes 8 v).getD (x - a) 0 else m x

def fill (m : Memory) (a n : Nat) (byte : UInt8) : Memory := fun x =>
  if a ≤ x ∧ x < a + n then byte else m x

def poke (m : Memory) (a : Nat) (byte : UInt8) : Memory := fun x => if x = a then byte else m x

theorem load_lt (m : Memory) (a : Nat) : m.load a < 2 ^ 64 := by
  have bound := ofLe_lt ((List.range 8).map fun i => m (a + i))
  rw [List.length_map, List.length_range] at bound
  exact bound

theorem load_congr {m' : Memory} (h : ∀ x, a ≤ x → x < a + 8 → m' x = m x) : m'.load a = m.load a := by
  unfold load
  congr 1
  apply List.map_congr_left
  intro i mem
  have := List.mem_range.mp mem
  exact h (a + i) (by omega) (by omega)

theorem store_apply_of_notMem (h : x < a ∨ a + 8 ≤ x) : m.store a v x = m x := if_neg (by omega)

theorem fill_apply_of_notMem (h : x < a ∨ a + n ≤ x) : m.fill a n byte x = m x := if_neg (by omega)

theorem poke_apply_of_ne (h : x ≠ a) : m.poke a byte x = m x := if_neg h

theorem load_store_self (m : Memory) (a : Nat) (h : v < 2 ^ 64) : (m.store a v).load a = v := by
  have bytes : ((List.range 8).map fun i => m.store a v (a + i)) = leBytes 8 v := by
    apply List.ext_getElem
    · simp
    intro i hi hi'
    have small : i < 8 := by simpa using hi
    simp only [List.getElem_map, List.getElem_range, store]
    rw [if_pos (by omega), Nat.add_sub_cancel_left, List.getD_eq_getElem?_getD,
      List.getElem?_eq_getElem hi', Option.getD_some]
  rw [load, bytes, ofLe_leBytes]
  exact Nat.mod_eq_of_lt h

theorem load_store_other (apart : a + 8 ≤ b ∨ b + 8 ≤ a) : (m.store b v).load a = m.load a :=
  load_congr fun _ _ _ => store_apply_of_notMem (by omega)

theorem load_fill_other (apart : a + 8 ≤ b ∨ b + n ≤ a) : (m.fill b n byte).load a = m.load a :=
  load_congr fun _ _ _ => fill_apply_of_notMem (by omega)

-- Equations between words are proved from the lemmas above and never by unfolding the bytes.
attribute [irreducible] load

end Memory

end AerOS.Lib
