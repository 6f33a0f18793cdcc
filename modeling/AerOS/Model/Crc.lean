import AerOS.Lib.Bytes

/-!
# CRC-32 (`crc32` of `kernel/src/aerfs.rs`)
-/

namespace AerOS

def crcShift (value : Nat) : Nat :=
  if value &&& 1 ≠ 0 then (value >>> 1) ^^^ 0xedb88320 else value >>> 1

def crcTable (index : Nat) : Nat := Nat.repeat crcShift 8 index

def crcStep (crc : Nat) (byte : UInt8) : Nat :=
  crcTable ((crc ^^^ byte.toNat) &&& 0xff) ^^^ (crc >>> 8)

def crc32 (data : List UInt8) : UInt32 :=
  UInt32.ofNat (0xffffffff ^^^ data.foldl crcStep 0xffffffff)

example : crc32 [0x31, 0x32, 0x33, 0x34, 0x35, 0x36, 0x37, 0x38, 0x39] = 0xcbf43926 := by
  decide +kernel

end AerOS
