import AerOS.Lib.Action
import AerOS.Model.Heap
import Mathlib.Data.List.FinRange

/-!
# The slab allocator (`Slabs` of `kernel/src/slab.rs`)

Headers and lists are kept in memory, where zero is the null pointer. `pages` are the pages taken from the kernel
heap; what the heap answers is an argument. A loop over a list of slabs is given one turn for every page.
-/

namespace AerOS.Slab
open Lib Action Function

def pageSize : Nat := 4096

def headerSize : Nat := 64

abbrev Class := Fin 7

def sizes : List Nat := [16, 32, 64, 128, 256, 512, 1024]

def objectSize (c : Class) : Nat := sizes.get c

def maxSize : Nat := 1024

def maxAlign : Nat := 64

def magic : Nat := 0x51abc0de7a3f9e15

def poison : Nat := 0xd1e5f4eeb10cba5e

def capacityOf (c : Class) : Nat := (pageSize - headerSize) / objectSize c

def classOffset : Nat := 8

def freeOffset : Nat := 16

def usedOffset : Nat := 24

def capacityOffset : Nat := 32

def previousOffset : Nat := 40

def nextOffset : Nat := 48

structure Cache where
  partialHead : Nat
  slabs : Nat
  inUse : Nat
  allocations : Nat
  pagesTaken : Nat
  pagesReturned : Nat

structure Slabs where
  memory : Memory
  caches : Class → Cache
  pages : List Nat

inductive Fault where
  | panic
  | loops
  deriving DecidableEq

abbrev M := Action Slabs Fault

def classOf (layout : Heap.Layout) : Option Class :=
  if layout.size > maxSize ∨ layout.align > maxAlign then none
  else
    let wanted := max (max layout.size layout.align) 1
    (List.finRange 7).find? fun c => decide (objectSize c ≥ wanted)

def Slabs.put (s : Slabs) (address offset value : Nat) : Slabs :=
  { s with memory := s.memory.store (address + offset) value }

def Slabs.nextOf (s : Slabs) (slab : Nat) : Nat := s.memory.load (slab + nextOffset)

def Slabs.previousOf (s : Slabs) (slab : Nat) : Nat := s.memory.load (slab + previousOffset)

def Slabs.wipe (s : Slabs) (address size : Nat) : Slabs :=
  { s with memory := s.memory.fill address size 0 }

def Slabs.setCache (s : Slabs) (c : Class) (cache : Cache) : Slabs :=
  { s with caches := update s.caches c cache }

def Slabs.setHead (s : Slabs) (c : Class) (slab : Nat) : Slabs :=
  s.setCache c { s.caches c with partialHead := slab }

def word (address offset : Nat) : M Nat := do
  return (← get).memory.load (address + offset)

def setWord (address offset value : Nat) : M Unit := modify fun s => s.put address offset value

def increment (value : Nat) : M Nat :=
  if value + 1 < 2 ^ 64 then pure (value + 1) else throw .panic

def decrement (value : Nat) : M Nat :=
  if 1 ≤ value then pure (value - 1) else throw .panic

def thread (page size : Nat) : Nat → Nat → Memory → Memory × Nat
  | 0, head, memory => (memory, head)
  | index + 1, head, memory =>
    let object := page + headerSize + index * size
    thread page size index object (memory.store object head)

def writeSlab (memory : Memory) (slab : Nat) (c : Class) (free : Nat) : Memory :=
  ((((((memory.store slab magic).store (slab + classOffset) c.val).store (slab + freeOffset) free).store
    (slab + usedOffset) 0).store (slab + capacityOffset) (capacityOf c)).store
    (slab + previousOffset) 0).store (slab + nextOffset) 0

def newSlab (c : Class) (page : Option Nat) : M (Option Nat) :=
  match page with
  | none => return none
  | some page => do
    modify fun s =>
      let threaded := thread page (objectSize c) (capacityOf c) 0 s.memory
      { s with memory := writeSlab threaded.1 page c threaded.2, pages := page :: s.pages }
    let cache := (← get).caches c
    let slabs ← increment cache.slabs
    let pagesTaken ← increment cache.pagesTaken
    modify fun s => s.setCache c { cache with slabs := slabs, pagesTaken := pagesTaken }
    return some page

def link (c : Class) (slab : Nat) (s : Slabs) : Slabs :=
  let first := (s.caches c).partialHead
  let s := (s.put slab previousOffset 0).put slab nextOffset first
  let s := if first ≠ 0 then s.put first previousOffset slab else s
  s.setHead c slab

def unlink (c : Class) (slab : Nat) (s : Slabs) : Slabs :=
  let previous := s.previousOf slab
  let next := s.nextOf slab
  let s := if previous = 0 then s.setHead c next else s.put previous nextOffset next
  let s := if next ≠ 0 then s.put next previousOffset previous else s
  (s.put slab previousOffset 0).put slab nextOffset 0

def takeObject (c : Class) (slab : Nat) : M (Option Nat) := do
  let object ← word slab freeOffset
  setWord slab freeOffset (← word object 0)
  setWord slab usedOffset (← increment (← word slab usedOffset))
  modify fun s => if s.memory.load (slab + freeOffset) = 0 then unlink c slab s else s
  modify fun s => s.wipe object (objectSize c)
  let cache := (← get).caches c
  let inUse ← increment cache.inUse
  let allocations ← increment cache.allocations
  modify fun s => s.setCache c { cache with inUse := inUse, allocations := allocations }
  return if object = 0 then none else some object

def allocate (c : Class) (page : Option Nat) : M (Option Nat) := do
  let slab := ((← get).caches c).partialHead
  if slab = 0 then
    match ← newSlab c page with
    | none => return none
    | some slab =>
      modify (link c slab)
      takeObject c slab
  else takeObject c slab

def spareFrom (s : Slabs) : Nat → Nat → Nat → Option Nat
  | 0, slab, count => if slab = 0 then some count else none
  | turns + 1, slab, count =>
    if slab = 0 then some count
    else
      let count := if s.memory.load (slab + usedOffset) = 0 then count + 1 else count
      spareFrom s turns (s.nextOf slab) count

def spareCount (c : Class) : M Nat := do
  let s ← get
  match spareFrom s s.pages.length (s.caches c).partialHead 0 with
  | none => throw .loops
  | some count => return count

def dropSlab (c : Class) (slab : Nat) : M Unit := do
  modify (unlink c slab)
  setWord slab 0 0
  if slab ≠ 0 then
    modify fun s => { s with pages := s.pages.erase slab }
  let cache := (← get).caches c
  let slabs ← decrement cache.slabs
  let pagesReturned ← increment cache.pagesReturned
  modify fun s => s.setCache c { cache with slabs := slabs, pagesReturned := pagesReturned }

def refuses (s : Slabs) (pointer : Nat) (c : Class) : Bool :=
  let slab := alignDown pointer pageSize
  let offset := pointer &&& (pageSize - 1)
  decide (offset < headerSize) || decide ((offset - headerSize) % objectSize c ≠ 0) ||
    decide (s.memory.load slab ≠ magic) || decide (s.memory.load (slab + classOffset) ≠ c.val) ||
    decide ((offset - headerSize) / objectSize c ≥ s.memory.load (slab + capacityOffset)) ||
    (decide (objectSize c ≥ 16) && decide (s.memory.load (pointer + 8) = poison))

def dropSpare (c : Class) (slab : Nat) : M Unit := do
  if (← word slab usedOffset) = 0 then
    if ((← get).caches c).slabs > 1 then
      if (← spareCount c) > 1 then
        dropSlab c slab

def giveBack (c : Class) (slab pointer : Nat) : M Unit := do
  modify fun s => s.wipe pointer (objectSize c)
  setWord pointer 8 poison
  let free ← word slab freeOffset
  setWord pointer 0 free
  setWord slab freeOffset pointer
  setWord slab usedOffset (← decrement (← word slab usedOffset))
  let cache := (← get).caches c
  let inUse ← decrement cache.inUse
  modify fun s => s.setCache c { cache with inUse := inUse }
  modify fun s => if free = 0 then link c slab s else s

def release (pointer : Nat) (c : Class) : M Bool := do
  if refuses (← get) pointer c then
    return false
  let slab := alignDown pointer pageSize
  giveBack c slab pointer
  dropSpare c slab
  return true

def reclaimFrom (c : Class) : Nat → Nat → Nat → M Nat
  | 0, slab, released => if slab = 0 then pure released else throw .loops
  | turns + 1, slab, released => do
    if slab = 0 then
      return released
    let next ← word slab nextOffset
    if (← word slab usedOffset) = 0 then
      dropSlab c slab
      reclaimFrom c turns next (released + 1)
    else reclaimFrom c turns next released

def reclaimClasses : List Class → Nat → M Nat
  | [], released => return released
  | c :: classes, released => do
    let s ← get
    let released ← reclaimFrom c s.pages.length (s.caches c).partialHead released
    reclaimClasses classes released

def reclaim : M Nat := reclaimClasses (List.finRange 7) 0

end AerOS.Slab
