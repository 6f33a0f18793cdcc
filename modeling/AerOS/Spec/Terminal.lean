import AerOS.Lib.Run
import AerOS.Model.Terminal

/-!
# What the Terminal's screen must survive
-/

namespace AerOS.Terminal

structure Inside (s : Screen) : Prop where
  row : s.row < rows
  col : s.col < cols
  region : s.top < s.bottom
  bottom : s.bottom < rows
  saved : s.saved.1 < rows ∧ s.saved.2 < cols

inductive Event where
  | byte (byte : UInt8)
  | takeReplies (room : Nat)
  | finish

def step (s : Option Screen) (event : Event) : Option Screen :=
  s.bind fun s =>
    match event with
    | .byte byte => s.feedByte byte
    | .takeReplies room => (s.takeReplies room).map Prod.snd
    | .finish => some s.finish

/-- The last byte of a sequence that scrolls a region from the first row down by all of its rows or
more: `T`, or `L` in the first row. -/
structure Overruns (s : Screen) (byte : UInt8) : Prop where
  parse : s.parse = .csi
  plain : s.isPrivate = false
  top : s.top = 0
  count : s.bottom < (s.params 0).toNat
  last : byte = 84 ∨ byte = 76 ∧ s.row = 0

def Spared (s : Option Screen) (event : Event) : Prop :=
  ∀ screen byte, s = some screen → event = .byte byte → ¬ Overruns screen byte

def Alive (s : Option Screen) : Prop := ∃ screen, s = some screen ∧ Inside screen

end AerOS.Terminal
