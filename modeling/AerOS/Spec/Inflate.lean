import AerOS.Model.Inflate

namespace AerOS.Inflate

/-- Adler-32 as it is defined, reduced after every byte. -/
def adlerPlain (sums : Nat × Nat) (byte : UInt8) : Nat × Nat :=
  ((sums.1 + byte.toNat) % 65521, (sums.2 + sums.1 + byte.toNat) % 65521)

end AerOS.Inflate
