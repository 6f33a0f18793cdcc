import Mathlib.Algebra.Order.Ring.Int
import Mathlib.Data.List.Basic

/-!
# The DER reader (`kernel/src/tls/der.rs`)

A reader is a position in a byte string. Reading gives the element and the reader after it, and nothing where
the source restores the position and answers `None`.
-/

namespace AerOS.Der

abbrev Bytes := List UInt8

structure Tlv where
  tag : UInt8
  value : Bytes
  raw : Bytes
deriving DecidableEq

structure Reader where
  data : Bytes
  position : Nat
deriving DecidableEq

def sequence : UInt8 := 0x30
def integer : UInt8 := 0x02
def bitString : UInt8 := 0x03
def octetString : UInt8 := 0x04
def oid : UInt8 := 0x06
def boolean : UInt8 := 0x01
def utcTime : UInt8 := 0x17
def generalizedTime : UInt8 := 0x18

def getRange (data : Bytes) (first last : Nat) : Option Bytes :=
  if first ≤ last ∧ last ≤ data.length then some ((data.drop first).take (last - first)) else none

def longLength (data : Bytes) : Nat → Nat → Nat → Option Nat
  | _, 0, length => some length
  | at_, count + 1, length => do
    let byte ← data[at_]?
    longLength data (at_ + 1) count (length <<< 8 ||| byte.toNat)

def lengthAt (data : Bytes) (start : Nat) : Option (Nat × Nat) := do
  let first ← data[start + 1]?
  if first < 0x80 then return (first.toNat, 2)
  else
    let count := (first &&& 0x7f).toNat
    guard ¬(count = 0 ∨ 4 < count)
    let length ← longLength data (start + 2) count 0
    guard ¬(length < 0x80 ∨ 1 < count ∧ length < 1 <<< (8 * (count - 1)))
    return (length, 2 + count)

namespace Reader

def new (data : Bytes) : Reader := ⟨data, 0⟩

def isEmpty (reader : Reader) : Bool := decide (reader.data.length ≤ reader.position)

def peekTag (reader : Reader) : Option UInt8 := reader.data[reader.position]?

def read (reader : Reader) : Option (Tlv × Reader) := do
  let start := reader.position
  let tag ← reader.data[start]?
  guard (tag &&& 0x1f ≠ 0x1f)
  let (length, header) ← lengthAt reader.data start
  let last := start + header + length
  let value ← getRange reader.data (start + header) last
  let raw ← getRange reader.data start last
  return (⟨tag, value, raw⟩, { reader with position := last })

def expectTlv (reader : Reader) (tag : UInt8) : Option (Tlv × Reader) := do
  let (element, rest) ← reader.read
  guard (element.tag = tag)
  return (element, rest)

def expect (reader : Reader) (tag : UInt8) : Option (Bytes × Reader) := do
  let (element, rest) ← reader.read
  guard (element.tag = tag)
  return (element.value, rest)

/-- `read` on a reader that it changes. -/
def readMut (reader : Reader) : Option Tlv × Reader :=
  match reader.read with
  | some (element, rest) => (some element, rest)
  | none => (none, reader)

def expectTlvMut (reader : Reader) (tag : UInt8) : Option Tlv × Reader :=
  let saved := reader.position
  match reader.readMut with
  | (some element, rest) => if element.tag = tag then (some element, rest) else (none, { rest with position := saved })
  | (none, rest) => (none, { rest with position := saved })

def expectMut (reader : Reader) (tag : UInt8) : Option Bytes × Reader :=
  let saved := reader.position
  match reader.readMut with
  | (some element, rest) =>
    if element.tag = tag then (some element.value, rest) else (none, { rest with position := saved })
  | (none, rest) => (none, { rest with position := saved })

end Reader

def whileNonEmpty {σ : Type} (body : σ → Reader → Option (σ × Reader)) : Nat → σ → Reader → Option σ
  | turns, s, reader =>
    if reader.isEmpty then some s
    else match turns with
      | 0 => none
      | turns + 1 => do
        let (s, reader) ← body s reader
        whileNonEmpty body turns s reader

def unsignedInteger (value : Bytes) : Option Bytes :=
  match value with
  | [] => none
  | first :: rest =>
    if first &&& 0x80 ≠ 0 then none
    else if first = 0 ∧ rest ≠ [] then some rest
    else some value

end AerOS.Der
