import AerOS.Model.Der
import Mathlib.Data.Nat.Log

/-!
# DER elements as they are written
-/

namespace AerOS.Der

def bigEndian : Nat → Nat → Bytes
  | 0, _ => []
  | count + 1, value => UInt8.ofNat (value / 256 ^ count) :: bigEndian count value

def encodeLength (length : Nat) : Bytes :=
  if length < 0x80 then [UInt8.ofNat length]
  else
    let count := Nat.log 256 length + 1
    UInt8.ofNat (0x80 + count) :: bigEndian count length

def encode (tag : UInt8) (value : Bytes) : Bytes := tag :: (encodeLength value.length ++ value)

structure Encodable (tag : UInt8) (value : Bytes) : Prop where
  tag : tag &&& 0x1f ≠ 0x1f
  short : value.length < 2 ^ 32

def Tlv.of (element : UInt8 × Bytes) : Tlv := ⟨element.1, element.2, encode element.1 element.2⟩

def reads : Nat → Reader → Option (List Tlv × Reader)
  | 0, reader => some ([], reader)
  | count + 1, reader => do
    let (element, reader) ← reader.read
    let (elements, reader) ← reads count reader
    return (element :: elements, reader)

end AerOS.Der
