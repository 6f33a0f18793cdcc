import AerOS.Model.Frames
import AerOS.Lib.Run

/-!
# What the frame allocator must keep, beside the set of addresses in use
-/

namespace AerOS.Frames

def MemoryRegion.Has (region : MemoryRegion) (x : Nat) : Prop :=
  region.start ≤ x ∧ x < region.start + region.pages * pageSize

structure BootMemoryMap.Proper (map : BootMemoryMap) : Prop where
  disjoint : map.regions.Pairwise fun a b => a.kind = .usable → b.kind = .usable →
    ∀ x, ¬ (a.Has x ∧ b.Has x)
  low : ∀ region ∈ map.regions, region.kind = .usable →
    region.start + region.pages * pageSize ≤ 2 ^ 52

structure State where
  allocator : FrameAllocator
  owned : Set Nat

def State.initial (map : BootMemoryMap) : State := ⟨fromMap map, ∅⟩

inductive Call where
  | allocate (pages alignmentPages : Nat)
  | release (start pages : Nat)

def block (start pages : Nat) : Set Nat := { x | start ≤ x ∧ x < start + pages * pageSize }

def State.step (s : State) : Call → State
  | .allocate pages alignmentPages =>
    match allocateContiguous s.allocator pages alignmentPages with
    | .done (some start) allocator => ⟨allocator, s.owned ∪ block start pages⟩
    | .done none allocator => ⟨allocator, s.owned⟩
    | .panic => s
  | .release start pages =>
    match releaseContiguous s.allocator start pages with
    | (true, allocator) => ⟨allocator, s.owned \ block start pages⟩
    | (false, allocator) => ⟨allocator, s.owned⟩

def FrameAllocator.Manages (allocator : FrameAllocator) (x : Nat) : Prop :=
  ∃ index < allocator.managedCount, (allocator.managed index).Has x

structure FramesCorrect (map : BootMemoryMap) (allocator : FrameAllocator) : Prop where
  separated : ∀ i j, i < j → j < allocator.freeCount →
    (allocator.free i).stop < (allocator.free j).start
  aligned : ∀ i < allocator.freeCount, (allocator.free i).start < (allocator.free i).stop ∧
    pageSize ∣ (allocator.free i).start ∧ pageSize ∣ (allocator.free i).stop
  inside : ∀ i < allocator.freeCount, ∀ x, (allocator.free i).Has x → allocator.Manages x
  managed : ∀ x, allocator.Manages x →
    ∃ region ∈ map.regions, region.kind = .usable ∧ region.Has x
  pages : allocator.freePages =
    ((List.range allocator.freeCount).map fun i => (allocator.free i).size / pageSize).sum
  constant : allocator.freePages + allocator.allocatedPages = (fromMap map).freePages
  room : allocator.freeCount ≤ maxFreeRanges

structure BlockCorrect (s : State) (pages alignmentPages start : Nat) : Prop where
  aligned : alignmentPages * pageSize ∣ start
  managed : ∀ x ∈ block start pages, s.allocator.Manages x
  low : lowMemoryLimit ≤ start
  fresh : ∀ x ∈ block start pages, x ∉ s.owned

end AerOS.Frames
