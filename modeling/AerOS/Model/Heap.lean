import AerOS.Lib.Memory
import AerOS.Lib.Words

/-!
# The kernel heap (`HeapState` of `kernel/src/heap.rs`)

The first two words of a free region are its size and the address of the next one, and zero is the null pointer.
A loop over the list is given one turn for every byte of the heap; it `loops` when these do not bring it to the end.
-/

namespace AerOS.Heap
open Lib

def headerCheck : Nat := 0xa3e07c5196d24bf8

def nodeSize : Nat := 16

def headerSize : Nat := 24

/-- A layout that Rust accepts: the size, rounded up to the alignment, is at most `isize::MAX`. -/
structure Layout where
  size : Nat
  align : Nat
  power : isPowerOfTwo align = true
  fits : size + align ≤ 2 ^ 63

structure HeapState where
  memory : Memory
  head : Nat
  base : Nat
  stop : Nat
  total : Nat
  free : Nat
  active : Nat

inductive Outcome (α : Type) where
  | done (answer : α) (heap : HeapState)
  | panic
  | loops

namespace HeapState

def sizeOf (heap : HeapState) (node : Nat) : Nat := heap.memory.load node

def nextOf (heap : HeapState) (node : Nat) : Nat := heap.memory.load (node + 8)

def setSize (heap : HeapState) (node size : Nat) : HeapState :=
  { heap with memory := heap.memory.store node size }

def setNext (heap : HeapState) (node next : Nat) : HeapState :=
  { heap with memory := heap.memory.store (node + 8) next }

def turns (heap : HeapState) : Nat := heap.stop - heap.base

def coalesceFrom : Nat → Nat → HeapState → Option HeapState
  | 0, current, heap => if current = 0 then some heap else none
  | turns + 1, current, heap =>
    if current = 0 then some heap
    else
      let next := heap.nextOf current
      if next = 0 then some heap
      else
        let currentEnd := saturatingAdd current (heap.sizeOf current)
        if currentEnd = next then
          let joined := heap.setSize current (saturatingAdd (heap.sizeOf current) (heap.sizeOf next))
          coalesceFrom turns current (joined.setNext current (joined.nextOf next))
        else coalesceFrom turns next heap

def coalesce (heap : HeapState) : Option HeapState := coalesceFrom heap.turns heap.head heap

def before (heap : HeapState) (start : Nat) : Nat → Nat → Option Nat
  | 0, current =>
    if heap.nextOf current ≠ 0 ∧ heap.nextOf current < start then none else some current
  | turns + 1, current =>
    if heap.nextOf current ≠ 0 ∧ heap.nextOf current < start then
      before heap start turns (heap.nextOf current)
    else some current

def insertRegion (heap : HeapState) (start size : Nat) : Option HeapState :=
  let heap := (heap.setSize start size).setNext start 0
  if heap.head = 0 ∨ start < heap.head then
    { heap.setNext start heap.head with head := start }.coalesce
  else
    match heap.before start heap.turns heap.head with
    | none => none
    | some current =>
      let heap := heap.setNext start (heap.nextOf current)
      (heap.setNext current start).coalesce

def overlapsFrom (heap : HeapState) (start stop : Nat) : Nat → Nat → Option Bool
  | 0, current => if current = 0 then some false else none
  | turns + 1, current =>
    if current = 0 then some false
    else
      let freeEnd := saturatingAdd current (heap.sizeOf current)
      if start < freeEnd ∧ stop > current then some true
      else overlapsFrom heap start stop turns (heap.nextOf current)

def overlapsFree (heap : HeapState) (start size : Nat) : Option Bool :=
  match checkedAdd start size with
  | none => some true
  | some stop => heap.overlapsFrom start stop heap.turns heap.head

def initializeHeap (memory : Memory) (base size : Nat) : Option HeapState :=
  let start := alignUp base 8
  match checkedAdd base size with
  | none => none
  | some rawEnd =>
    let stop := alignDown rawEnd 8
    if stop ≤ start ∨ stop - start < nodeSize then none
    else
      insertRegion ⟨memory, 0, start, stop, stop - start, stop - start, 0⟩ start (stop - start)

def writeHeader (heap : HeapState) (user blockStart blockSize : Nat) : HeapState :=
  let header := user - headerSize
  let check := user ^^^ blockStart ^^^ blockSize ^^^ headerCheck
  { heap with
    memory := ((heap.memory.store header blockStart).store (header + 8) blockSize).store
      (header + 16) check }

def insertPart (heap : HeapState) (start stop : Nat) : Option HeapState :=
  if start < stop then heap.insertRegion start (stop - start) else some heap

def unlink (heap : HeapState) (previous next : Nat) : HeapState :=
  if previous = 0 then { heap with head := next } else heap.setNext previous next

def take (heap : HeapState) (previous current regionEnd user requestedEnd prefixSize : Nat) :
    Outcome (Option Nat) :=
  let blockStart := if prefixSize ≥ nodeSize then user - headerSize else current
  let suffixSize := regionEnd - requestedEnd
  let blockEnd := if suffixSize ≥ nodeSize then requestedEnd else regionEnd
  let unlinked := heap.unlink previous (heap.nextOf current)
  match (unlinked.insertPart current blockStart).bind fun heap =>
      heap.insertPart blockEnd regionEnd with
  | none => .loops
  | some heap =>
    let blockSize := blockEnd - blockStart
    let heap := heap.writeHeader user blockStart blockSize
    .done (if user = 0 then none else some user)
      { heap with free := heap.free - blockSize, active := saturatingAdd heap.active 1 }

def place (heap : HeapState) (requested alignment current : Nat) : Option (Nat × Nat × Nat) := do
  let regionEnd ← checkedAdd current (heap.sizeOf current)
  let first ← checkedAdd current headerSize
  let user := alignUp first alignment
  let _ ← checkedSub user headerSize
  let requestedEnd ← checkedAdd user requested
  return (regionEnd, user, requestedEnd)

def allocateFrom (heap : HeapState) (requested alignment : Nat) :
    Nat → Nat → Nat → Outcome (Option Nat)
  | 0, _, current => if current = 0 then .done none heap else .loops
  | turns + 1, previous, current =>
    if current = 0 then .done none heap
    else
      match heap.place requested alignment current with
      | none => .done none heap
      | some (regionEnd, user, requestedEnd) =>
        if requestedEnd > regionEnd then
          allocateFrom heap requested alignment turns current (heap.nextOf current)
        else
          match checkedSub (user - headerSize) current with
          | none => .panic
          | some prefixSize => heap.take previous current regionEnd user requestedEnd prefixSize

def allocate (heap : HeapState) (layout : Layout) : Outcome (Option Nat) :=
  let requested := max layout.size 1
  let alignment := max layout.align 8
  heap.allocateFrom requested alignment heap.turns 0 heap.head

def headerValid (heap : HeapState) (user blockStart blockSize check : Nat) : Bool :=
  decide (check = user ^^^ blockStart ^^^ blockSize ^^^ headerCheck) &&
    decide (heap.base ≤ blockStart) && decide (headerSize ≤ blockSize) &&
    (match checkedAdd blockStart blockSize with
      | none => false
      | some stop => decide (stop ≤ heap.stop))

def deallocate (heap : HeapState) (user : Nat) : Outcome Bool :=
  if user < saturatingAdd heap.base headerSize ∨ heap.stop ≤ user then .done false heap
  else
    let header := user - headerSize
    let blockStart := heap.memory.load header
    let blockSize := heap.memory.load (header + 8)
    let check := heap.memory.load (header + 16)
    if heap.headerValid user blockStart blockSize check then
      let heap := { heap with memory := heap.memory.store (header + 16) 0 }
      match heap.overlapsFree blockStart blockSize with
      | none => .loops
      | some true => .done false heap
      | some false =>
        let heap := { heap with memory := heap.memory.fill blockStart blockSize 0 }
        match heap.insertRegion blockStart blockSize with
        | none => .loops
        | some heap =>
          .done true
            { heap with
              free := saturatingAdd heap.free blockSize
              active := heap.active - 1 }
    else .done false heap

end HeapState

end AerOS.Heap
