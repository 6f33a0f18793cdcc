import Mathlib.Algebra.Order.Ring.Int
import Mathlib.Data.List.Basic

/-!
# Byte buffers and little-endian numbers
-/

namespace AerOS.Lib

variable {i offset len : Nat} {data : List UInt8}

def leBytes : Nat → Nat → List UInt8
  | 0, _ => []
  | k + 1, v => UInt8.ofNat v :: leBytes k (v / 256)

def ofLe : List UInt8 → Nat
  | [] => 0
  | b :: bs => b.toNat + 256 * ofLe bs

@[simp] theorem length_leBytes (k v : Nat) : (leBytes k v).length = k := by
  induction k generalizing v with
  | zero => rfl
  | succ k ih => simp [leBytes, ih]

theorem ofLe_leBytes (k v : Nat) : ofLe (leBytes k v) = v % 256 ^ k := by
  induction k generalizing v with
  | zero => simp [leBytes, ofLe, Nat.mod_one]
  | succ k ih =>
    have low : (UInt8.ofNat v).toNat = v % 256 := UInt8.toNat_ofNat'
    rw [leBytes, ofLe, ih, low, Nat.pow_succ', Nat.mod_mul]

theorem ofLe_lt (bytes : List UInt8) : ofLe bytes < 256 ^ bytes.length := by
  induction bytes with
  | nil => simp [ofLe]
  | cons b _ _ =>
    have := b.toNat_lt
    rw [ofLe, List.length_cons, Nat.pow_succ']
    omega

structure Buffer (n : Nat) where
  byte : Nat → UInt8
  beyond : ∀ i, n ≤ i → byte i = 0

namespace Buffer
variable {n : Nat}

theorem ext_byte {a b : Buffer n} (h : ∀ i < n, a.byte i = b.byte i) : a = b := by
  cases a with
  | mk f hf =>
    cases b with
    | mk g hg =>
      have : f = g := by
        funext i
        rcases lt_or_ge i n with lt | ge
        · exact h i lt
        · rw [hf i ge, hg i ge]
      subst this
      rfl

def ofFn (f : Nat → UInt8) : Buffer n where
  byte i := if i < n then f i else 0
  beyond _ hi := if_neg (Nat.not_lt.mpr hi)

def zero : Buffer n := ofFn fun _ => 0

def put (b : Buffer n) (offset : Nat) (data : List UInt8) : Buffer n :=
  ofFn fun i =>
    if offset ≤ i ∧ i < offset + data.length then data.getD (i - offset) 0 else b.byte i

def slice (b : Buffer n) (offset len : Nat) : List UInt8 := (List.range len).map fun i => b.byte (offset + i)

def toList (b : Buffer n) : List UInt8 := b.slice 0 n

theorem byte_ofFn (f : Nat → UInt8) (hi : i < n) : (ofFn f : Buffer n).byte i = f i := if_pos hi

@[simp] theorem byte_zero (i : Nat) : (zero : Buffer n).byte i = 0 := by simp [zero, ofFn]

theorem byte_put_of_mem (b : Buffer n)
    (fits : offset + data.length ≤ n) (lower : offset ≤ i) (upper : i < offset + data.length) :
    (b.put offset data).byte i = data.getD (i - offset) 0 := by
  rw [put, byte_ofFn _ (by omega), if_pos ⟨lower, upper⟩]

theorem byte_put_of_notMem (b : Buffer n)
    (outside : i < offset ∨ offset + data.length ≤ i) : (b.put offset data).byte i = b.byte i := by
  rcases lt_or_ge i n with lt | ge
  · rw [put, byte_ofFn _ lt, if_neg (by omega)]
  · rw [beyond _ i ge, beyond _ i ge]

theorem byte_put_single (b : Buffer n) (x : UInt8) (fits : offset < n) :
    (b.put offset [x]).byte offset = x := by
  rw [byte_put_of_mem b fits le_rfl (Nat.lt_succ_self _), Nat.sub_self]
  rfl

@[simp] theorem length_slice (b : Buffer n) (offset len : Nat) : (b.slice offset len).length = len := by
  simp [slice]

@[simp] theorem length_toList (b : Buffer n) : b.toList.length = n := by simp [toList]

section
variable (b : Buffer n)
include b

theorem getD_slice (hi : i < len) : (b.slice offset len).getD i 0 = b.byte (offset + i) := by
  simp [slice, List.getD, hi]

theorem slice_add (offset first second : Nat) :
    b.slice offset (first + second) = b.slice offset first ++ b.slice (offset + first) second := by
  simp [slice, List.range_add, Nat.add_assoc, Function.comp_def]

theorem slice_put_self (fits : offset + data.length ≤ n) (hlen : data.length = len) :
    (b.put offset data).slice offset len = data := by
  subst hlen
  apply List.ext_getElem
  · simp
  intro i hi hi'
  simp only [slice, List.getElem_map, List.getElem_range]
  rw [byte_put_of_mem b fits (Nat.le_add_right _ _) (by omega)]
  simp [List.getD, hi']

theorem slice_put_other {offset' : Nat} (apart : offset + len ≤ offset' ∨ offset' + data.length ≤ offset) :
    (b.put offset' data).slice offset len = b.slice offset len := by
  refine List.map_congr_left fun i member => byte_put_of_notMem b ?_
  have := List.mem_range.mp member
  omega

end

theorem toList_injective {a b : Buffer n} (h : a.toList = b.toList) : a = b := by
  apply ext_byte
  intro i hi
  have same := congrArg (List.getD · i 0) h
  simp only [toList, getD_slice _ hi, Nat.zero_add] at same
  exact same

instance : DecidableEq (Buffer n) := fun a b =>
  decidable_of_iff (a.toList = b.toList) ⟨toList_injective, congrArg toList⟩

end Buffer
end AerOS.Lib
