import AerOS.Lib.Run
import AerOS.Model.FrameRefs

/-!
# The table as a map from frames to counts
-/

namespace AerOS.FrameRefs
open Function

structure Frame where
  address : UInt64
  nonzero : address ≠ 0
  aligned : address &&& 0xfff = 0

abbrev Counts := UInt64 → Option UInt32

def Counts.add (counts : Counts) (physical : UInt64) (untrackedCount : UInt32) : Counts :=
  update counts physical (some ((counts physical).elim untrackedCount (· + 1)))

def Counts.release (counts : Counts) (physical : UInt64) : Counts :=
  update counts physical ((counts physical).bind fun count => if 1 < count then some (count - 1) else none)

structure State where
  table : Table
  counts : Counts

def State.start : State := ⟨fun _ => (0, 0), fun _ => none⟩

inductive Call where
  | share (frame : Frame)
  | retain (frame : Frame)
  | release (frame : Frame)

/-- The map changes when the call says that it did its work. -/
def State.added (s : State) (counts : Counts) : Option (Bool × Table) → State
  | none => s
  | some (done, table) => ⟨table, if done then counts else s.counts⟩

def State.step (s : State) : Call → State
  | .share frame => s.added (s.counts.add frame.address 2) (frameShare s.table frame.address)
  | .retain frame => s.added (s.counts.add frame.address 1) (frameRetain s.table frame.address)
  | .release frame =>
    match frameRelease s.table frame.address with
    | none => s
    | some (_, table) => ⟨table, s.counts.release frame.address⟩

structure MapCorrect (s : State) : Prop where
  found : ∀ (frame : Frame) (slot : Slot), frameSlot s.table frame.address = .ok slot ↔
    ∃ count, s.counts frame.address = some count ∧ s.table slot = (frame.address, count)
  live : ∀ (frame : Frame), (s.counts frame.address).isSome → ∃ slot, frameSlot s.table frame.address = .ok slot
  once : ∀ i j, (s.table i).1 = (s.table j).1 → (s.table i).1 ≠ 0 → i = j
  full : ∀ frame : Frame, frameSlot s.table frame.address = .error none → ∀ i, (s.table i).1 ≠ 0
  removed : ∀ slot, (s.table slot).1 ≠ 0 → ∃ table, frameRemove s.table slot = some table ∧
    ∀ entry, entry.1 ≠ 0 → ((∃ i, table i = entry) ↔ entry.1 ≠ (s.table slot).1 ∧ ∃ i, s.table i = entry)

end AerOS.FrameRefs
