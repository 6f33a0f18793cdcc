import Mathlib.Algebra.Order.Ring.Int
import Mathlib.Data.List.Basic

/-!
# The checksum of zlib streams (`adler32` of `kernel/src/inflate.rs`)
-/

namespace AerOS.Inflate

inductive Stop where
  | panic
  deriving DecidableEq, Repr

abbrev Result (α : Type) := Except Stop α

def adlerByte (sums : Result (Nat × Nat)) (byte : UInt8) : Result (Nat × Nat) := do
  let (a, b) ← sums
  let a := a + byte.toNat
  let b := b + a
  if b < 2 ^ 32 then
    return (a, b)
  else
    throw .panic

def adlerChunks : Nat → List UInt8 → Nat × Nat → Result (Nat × Nat)
  | 0, _, sums => return sums
  | turns + 1, data, sums => do
    if data = [] then
      return sums
    else
      let (a, b) ← (data.take 5552).foldl adlerByte (.ok sums)
      adlerChunks turns (data.drop 5552) (a % 65521, b % 65521)

def adler32 (data : List UInt8) : Result Nat := do
  let (a, b) ← adlerChunks data.length data (1, 0)
  return b * 2 ^ 16 + a

end AerOS.Inflate
