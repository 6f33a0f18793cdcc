import AerOS.Lib.Probing

/-!
# Owners of shared frames (`FRAME_REFS` of `kernel/src/arch/paging.rs`)

A slot holds the address of a frame and its count; address zero marks an empty slot. The loop of `frame_remove`
has no bound in the source: it is given more turns than it can need, and `none` when they do not suffice.
-/

namespace AerOS.FrameRefs
open Lib.Probing Function

def frameRefSlots : Nat := 32768

theorem frameRefSlots_pos : 0 < frameRefSlots := by decide

abbrev Slot := Fin frameRefSlots

abbrev Table := Slot → UInt64 × UInt32

def frameHome (physical : UInt64) : Slot :=
  ⟨((physical >>> 12) * 0x9e3779b1).toNat % frameRefSlots, Nat.mod_lt _ frameRefSlots_pos⟩

def frameSlotFrom (table : Table) (physical : UInt64) : Nat → Slot → Except (Option Slot) Slot
  | 0, _ => .error none
  | turns + 1, index =>
    if (table index).1 = physical then .ok index
    else if (table index).1 = 0 then .error (some index)
    else frameSlotFrom table physical turns (next index)

def frameSlot (table : Table) (physical : UInt64) : Except (Option Slot) Slot :=
  frameSlotFrom table physical frameRefSlots (frameHome physical)

def removeFrom : Nat → Table → Slot → Slot → Option Table
  | 0, _, _, _ => none
  | turns + 1, table, hole, index =>
    let index := next index
    let physical := (table index).1
    if physical = 0 then some table
    else
      let home := frameHome physical
      if if hole ≤ index then hole < home ∧ home ≤ index else hole < home ∨ home ≤ index then
        removeFrom turns table hole index
      else removeFrom turns (update (update table hole (table index)) index (0, 0)) index index

def removeTurns : Nat := frameRefSlots * frameRefSlots * frameRefSlots + frameRefSlots

def frameRemove (table : Table) (hole : Slot) : Option Table :=
  removeFrom removeTurns (update table hole (0, 0)) hole hole

/-- A count that overflows stops the kernel (`none`). -/
def frameAdd (table : Table) (physical : UInt64) (untrackedCount : UInt32) : Option (Bool × Table) :=
  match frameSlot table physical with
  | .ok index =>
    if (table index).2.toNat + 1 < 2 ^ 32 then
      some (true, update table index ((table index).1, (table index).2 + 1))
    else none
  | .error (some index) => some (true, update table index (physical, untrackedCount))
  | .error none => some (false, table)

def frameRetain (table : Table) (physical : UInt64) : Option (Bool × Table) := frameAdd table physical 1

def frameShare (table : Table) (physical : UInt64) : Option (Bool × Table) := frameAdd table physical 2

/-- The answer is whether the frame goes back to the allocator. -/
def frameRelease (table : Table) (physical : UInt64) : Option (Bool × Table) :=
  match frameSlot table physical with
  | .ok index =>
    if 1 < (table index).2 then some (false, update table index ((table index).1, (table index).2 - 1))
    else (frameRemove table index).map (true, ·)
  | .error _ => some (true, table)

end AerOS.FrameRefs
