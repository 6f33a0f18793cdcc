import Mathlib.Algebra.Order.Ring.Int
import Mathlib.Data.List.Range

/-!
# Byte rings (`ring_put`, `ring_peek` and `ring_take` of `kernel/src/syscall.rs`)

`length` bytes are queued from `head` on, and the queue goes on at the start of the array where it reaches the end.
-/

namespace AerOS.Ring

abbrev Data := Nat → UInt8

def copyIn (data : Data) (start : Nat) (source : List UInt8) : Data := fun i =>
  if start ≤ i ∧ i < start + source.length then source.getD (i - start) 0 else data i

def copyOut (data : Data) (start count : Nat) : List UInt8 :=
  (List.range count).map fun i => data (start + i)

def ringPut (size : Nat) (data : Data) (head length : Nat) (source : List UInt8) : Nat × Data × Nat :=
  let count := min source.length (size - length)
  let tail := (head + length) % size
  let first := min count (size - tail)
  let data := copyIn data tail (source.take first)
  let data := copyIn data 0 ((source.take count).drop first)
  (count, data, length + count)

def ringPeek (size : Nat) (data : Data) (head length offset room : Nat) : List UInt8 :=
  let count := min room (length - offset)
  let start := (head + offset) % size
  let first := min count (size - start)
  copyOut data start first ++ copyOut data 0 (count - first)

def ringTake (size : Nat) (data : Data) (head length room : Nat) : List UInt8 × Nat × Nat :=
  let taken := ringPeek size data head length 0 room
  (taken, (head + taken.length) % size, length - taken.length)

end AerOS.Ring
