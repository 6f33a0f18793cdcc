import AerOS.Lib.Memory
import AerOS.Lib.Ranges
import AerOS.Lib.Words

/-!
# Physical page frames (`FrameAllocator` of `kernel/src/memory.rs`)

Arrays are functions of the index together with a count; the loops that shift, sort and join their entries are
those of the source. A write past the end of an array is a panic.
-/

namespace AerOS.Frames
open Lib Function

def pageSize : Nat := 4096

def lowMemoryLimit : Nat := 64 * 512 * pageSize

def maxMemoryRegions : Nat := 256

def maxFreeRanges : Nat := 512

inductive MemoryKind where
  | usable | bootReclaimable | runtime | acpiReclaimable | acpiNvs | mmio | persistent | unusable
  | reserved
  deriving DecidableEq, Repr

structure MemoryRegion where
  start : Nat
  pages : Nat
  kind : MemoryKind
  deriving DecidableEq, Repr

def MemoryRegion.stop (region : MemoryRegion) : Option Nat :=
  (checkedMul region.pages pageSize).bind (checkedAdd region.start)

structure BootMemoryMap where
  regions : List MemoryRegion
  few : regions.length ≤ maxMemoryRegions

structure FrameAllocator where
  managed : Nat → Range
  managedCount : Nat
  free : Nat → Range
  freeCount : Nat
  freePages : Nat
  allocatedPages : Nat

def Range.empty : Range := ⟨0, 0⟩

def FrameAllocator.empty : FrameAllocator :=
  ⟨fun _ => Range.empty, 0, fun _ => Range.empty, 0, 0, 0⟩

def entries (array : Nat → Range) (count : Nat) : List Range := (List.range count).map array

def FrameAllocator.freeList (allocator : FrameAllocator) : List Range :=
  entries allocator.free allocator.freeCount

def FrameAllocator.managedList (allocator : FrameAllocator) : List Range :=
  entries allocator.managed allocator.managedCount

def shiftUp (array : Nat → Range) (first : Nat) : Nat → Nat → Range
  | 0 => array
  | count + 1 =>
    shiftUp (update array (first + count + 1) (array (first + count))) first count

def shiftDown (array : Nat → Range) (first : Nat) : Nat → Nat → Range
  | 0 => array
  | count + 1 => shiftDown (update array first (array (first + 1))) (first + 1) count

def insertFree (allocator : FrameAllocator) (index : Nat) (range : Range) :
    Option FrameAllocator :=
  if allocator.freeCount < maxFreeRanges then
    let free := shiftUp allocator.free index (allocator.freeCount - index)
    some { allocator with free := update free index range, freeCount := allocator.freeCount + 1 }
  else none

def removeFree (allocator : FrameAllocator) (index : Nat) : FrameAllocator :=
  let free := shiftDown allocator.free index (allocator.freeCount - 1 - index)
  { allocator with
    free := update free (allocator.freeCount - 1) Range.empty
    freeCount := allocator.freeCount - 1 }

def sink (value : Range) : Nat → (Nat → Range) → Nat → Range
  | 0, array => update array 0 value
  | inner + 1, array =>
    if (array inner).start > value.start then sink value inner (update array (inner + 1) (array inner))
    else update array (inner + 1) value

def sortEntries (array : Nat → Range) : Nat → Nat → Range
  | 0 => array
  | count + 1 =>
    let sorted := sortEntries array count
    sink (sorted (count + 1)) (count + 1) sorted

def sortFree (allocator : FrameAllocator) : FrameAllocator :=
  { allocator with free := sortEntries allocator.free (allocator.freeCount - 1) }

def coalesceFrom : Nat → Nat → FrameAllocator → FrameAllocator
  | 0, _, allocator => allocator
  | turns + 1, index, allocator =>
    if index + 1 < allocator.freeCount then
      let range := allocator.free index
      let next := allocator.free (index + 1)
      if range.stop ≥ next.start then
        let joined : Range := ⟨range.start, max range.stop next.stop⟩
        coalesceFrom turns index
          (removeFree { allocator with free := update allocator.free index joined } (index + 1))
      else coalesceFrom turns (index + 1) allocator
    else allocator

def coalesceFree (allocator : FrameAllocator) : FrameAllocator :=
  coalesceFrom allocator.freeCount 0 allocator

def addRegion (allocator : FrameAllocator) (region : MemoryRegion) : FrameAllocator :=
  if region.kind ≠ .usable then allocator
  else
    let start := alignUp (max region.start lowMemoryLimit) pageSize
    match region.stop.map fun value => alignDown value pageSize with
    | none => allocator
    | some stop =>
      if start ≥ stop ∨ allocator.managedCount = maxMemoryRegions ∨
          allocator.freeCount = maxFreeRanges then
        allocator
      else
        { allocator with
          managed := update allocator.managed allocator.managedCount ⟨start, stop⟩
          managedCount := allocator.managedCount + 1
          free := update allocator.free allocator.freeCount ⟨start, stop⟩
          freeCount := allocator.freeCount + 1
          freePages := saturatingAdd allocator.freePages ((stop - start) / pageSize) }

def fromMap (map : BootMemoryMap) : FrameAllocator :=
  coalesceFree (sortFree (map.regions.foldl addRegion FrameAllocator.empty))

def consumeRange (allocator : FrameAllocator) (index : Nat) (range : Range) (start stop : Nat) :
    Option FrameAllocator :=
  match decide (start > range.start), decide (stop < range.stop) with
  | false, false => some (removeFree allocator index)
  | false, true =>
    some { allocator with free := update allocator.free index ⟨stop, range.stop⟩ }
  | true, false =>
    some { allocator with free := update allocator.free index ⟨range.start, start⟩ }
  | true, true =>
    insertFree { allocator with free := update allocator.free index ⟨range.start, start⟩ }
      (index + 1) ⟨stop, range.stop⟩

inductive Outcome (α : Type) where
  | done (answer : α) (allocator : FrameAllocator)
  | panic

def allocateFrom (allocator : FrameAllocator) (pages bytes alignment : Nat) :
    Nat → Nat → Outcome (Option Nat)
  | 0, _ => .done none allocator
  | left + 1, index =>
    let range := allocator.free index
    let start := alignUp range.start alignment
    match checkedAdd start bytes with
    | none => .done none allocator
    | some stop =>
      if stop > range.stop then allocateFrom allocator pages bytes alignment left (index + 1)
      else if start > range.start ∧ stop < range.stop ∧ allocator.freeCount = maxFreeRanges then
        allocateFrom allocator pages bytes alignment left (index + 1)
      else
        match consumeRange allocator index range start stop with
        | none => .panic
        | some allocator =>
          .done (some start)
            { allocator with
              freePages := allocator.freePages - pages
              allocatedPages := saturatingAdd allocator.allocatedPages pages }

def allocateContiguous (allocator : FrameAllocator) (pages alignmentPages : Nat) :
    Outcome (Option Nat) :=
  if pages = 0 ∨ isPowerOfTwo alignmentPages = false then .done none allocator
  else
    match checkedMul pages pageSize, checkedMul alignmentPages pageSize with
    | some bytes, some alignment =>
      allocateFrom allocator pages bytes alignment allocator.freeCount 0
    | _, _ => .done none allocator

def position (allocator : FrameAllocator) (p : Range → Bool) : Option Nat :=
  (List.range allocator.freeCount).find? fun index => p (allocator.free index)

def giveBack (allocator : FrameAllocator) (start stop : Nat) : Option FrameAllocator :=
  match position allocator (fun range => range.stop == start),
    position allocator (fun range => range.start == stop) with
  | some left, some right =>
    let joined : Range := ⟨(allocator.free left).start, (allocator.free right).stop⟩
    some (removeFree { allocator with free := update allocator.free left joined } right)
  | some left, none =>
    some { allocator with free := update allocator.free left ⟨(allocator.free left).start, stop⟩ }
  | none, some right =>
    some { allocator with free := update allocator.free right ⟨start, (allocator.free right).stop⟩ }
  | none, none =>
    if allocator.freeCount = maxFreeRanges then none
    else
      some
        { allocator with
          free := update allocator.free allocator.freeCount ⟨start, stop⟩
          freeCount := allocator.freeCount + 1 }

def releaseContiguous (allocator : FrameAllocator) (start pages : Nat) : Bool × FrameAllocator :=
  if pages = 0 ∨ start &&& (pageSize - 1) ≠ 0 then (false, allocator)
  else
    match (checkedMul pages pageSize).bind (checkedAdd start) with
    | none => (false, allocator)
    | some stop =>
      if !(allocator.managedList.any fun range =>
          decide (range.Has start) && decide (stop ≤ range.stop)) ||
          allocator.freeList.any fun range =>
            decide (start < range.stop) && decide (stop > range.start) then
        (false, allocator)
      else
        match checkedAdd allocator.freePages pages, checkedSub allocator.allocatedPages pages with
        | some freePages, some allocatedPages =>
          match giveBack allocator start stop with
          | none => (false, allocator)
          | some allocator =>
            (true, coalesceFree (sortFree { allocator with freePages, allocatedPages }))
        | _, _ => (false, allocator)

/-- The memory after `release_contiguous`, which wipes the block before it looks for its place among
the free ranges. -/
def releaseMemory (allocator : FrameAllocator) (memory : Memory) (start pages : Nat) : Memory :=
  if pages = 0 ∨ start &&& (pageSize - 1) ≠ 0 then memory
  else
    match (checkedMul pages pageSize).bind (checkedAdd start) with
    | none => memory
    | some stop =>
      if !(allocator.managedList.any fun range =>
          decide (range.Has start) && decide (stop ≤ range.stop)) ||
          allocator.freeList.any fun range =>
            decide (start < range.stop) && decide (stop > range.start) then
        memory
      else
        match checkedAdd allocator.freePages pages, checkedSub allocator.allocatedPages pages with
        | some _, some _ => memory.fill start (pages * pageSize) 0
        | _, _ => memory

end AerOS.Frames
