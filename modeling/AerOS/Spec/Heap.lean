import AerOS.Model.Heap
import AerOS.Lib.Chain
import AerOS.Lib.Ranges
import AerOS.Lib.Run

/-!
# What the kernel heap must keep, beside the list of live allocations
-/

namespace AerOS.Heap
open Lib

structure Live where
  pointer : Nat
  layout : Layout

structure State where
  heap : HeapState
  live : List Live

inductive Call where
  | allocate (layout : Layout)
  | deallocate (pointer : Nat)
  | store (address : Nat) (byte : UInt8)

def State.Writable (s : State) (address : Nat) : Prop :=
  (∃ live ∈ s.live, live.pointer ≤ address ∧ address < live.pointer + live.layout.size) ∨
    address < s.heap.base ∨ s.heap.stop ≤ address

instance (s : State) (address : Nat) : Decidable (s.Writable address) :=
  inferInstanceAs (Decidable (_ ∨ _))

/-- Only live pointers are given back, and only bytes that are one's own are written. -/
def State.step (s : State) : Call → State
  | .allocate layout =>
    match s.heap.allocate layout with
    | .done (some pointer) heap => ⟨heap, ⟨pointer, layout⟩ :: s.live⟩
    | .done none heap => ⟨heap, s.live⟩
    | _ => s
  | .deallocate pointer =>
    if s.live.any (·.pointer == pointer) then
      match s.heap.deallocate pointer with
      | .done true heap => ⟨heap, s.live.eraseP (·.pointer == pointer)⟩
      | .done false heap => ⟨heap, s.live⟩
      | _ => s
    else s
  | .store address byte =>
    if s.Writable address then
      { s with heap := { s.heap with memory := s.heap.memory.poke address byte } }
    else s

def HeapState.block (heap : HeapState) (pointer : Nat) : Range :=
  let start := heap.memory.load (pointer - headerSize)
  ⟨start, start + heap.memory.load (pointer - headerSize + 8)⟩

structure FreeList (heap : HeapState) (regions : List Range) : Prop where
  chain : Chain heap.nextOf heap.head (regions.map Range.start) 0
  sizes : ∀ r ∈ regions, heap.sizeOf r.start = r.size

structure HeapCorrect (s : State) (regions : List Range) : Prop where
  list : FreeList s.heap regions
  separated : Separated regions
  large : ∀ r ∈ regions, nodeSize ≤ r.size
  tiles : Tiles (regions ++ s.live.map fun live => s.heap.block live.pointer) s.heap.base s.heap.stop
  free : s.heap.free = total regions
  active : s.heap.active = s.live.length
  placed : ∀ live ∈ s.live, live.layout.align ∣ live.pointer ∧
    (s.heap.block live.pointer).start + headerSize ≤ live.pointer ∧
    live.pointer + max live.layout.size 1 ≤ (s.heap.block live.pointer).stop

inductive HeapState.OnList (heap : HeapState) : Nat → Prop
  | head (nonnull : heap.head ≠ 0) : OnList heap heap.head
  | next {node : Nat} (on : OnList heap node) (nonnull : heap.nextOf node ≠ 0) : OnList heap (heap.nextOf node)

/-- Any pointer may be given back, whatever the bytes before it hold. -/
def State.serve (s : State) : Call → State
  | .deallocate pointer =>
    match s.heap.deallocate pointer with
    | .done true heap => ⟨heap, s.live.eraseP (·.pointer == pointer)⟩
    | .done false heap => ⟨heap, s.live⟩
    | _ => s
  | call => s.step call

/-- The nodes that a call reads or writes are on the list before or after it, or it makes one of the block that it
takes back, which may become part of the region before it. -/
def State.Touches (s : State) (call : Call) (node : Nat) : Prop :=
  s.heap.OnList node ∨ (s.serve call).heap.OnList node ∨
    ∃ pointer heap, call = .deallocate pointer ∧ s.heap.deallocate pointer = .done true heap ∧
      node = (s.heap.block pointer).start

/-- Multiples of eight bytes are asked for, and a pointer that is not live is refused by its header. -/
def State.Regular (s : State) : Call → Prop
  | .allocate layout => 8 ∣ max layout.size 1
  | .deallocate pointer =>
    s.live.any (·.pointer == pointer) = true ∨ s.heap.deallocate pointer = .done false s.heap
  | .store _ _ => True

end AerOS.Heap
