import AerOS.Model.Slab
import AerOS.Lib.Chain
import AerOS.Lib.Run

/-!
# What the slab allocator must keep, beside the list of live objects
-/

namespace AerOS.Slab
open Lib

structure Live where
  pointer : Nat
  layout : Heap.Layout

structure State where
  slabs : Slabs
  live : List Live

def State.initial (memory : Memory) : State :=
  ⟨⟨memory, fun _ => ⟨0, 0, 0, 0, 0, 0⟩, []⟩, []⟩

structure FreshPage (s : State) (page : Nat) : Prop where
  aligned : pageSize ∣ page
  nonnull : 0 < page
  high : page + pageSize ≤ 2 ^ 64
  fresh : page ∉ s.slabs.pages

instance (s : State) (page : Nat) : Decidable (FreshPage s page) :=
  decidable_of_iff (pageSize ∣ page ∧ 0 < page ∧ page + pageSize ≤ 2 ^ 64 ∧ page ∉ s.slabs.pages)
    ⟨fun ⟨h₁, h₂, h₃, h₄⟩ => ⟨h₁, h₂, h₃, h₄⟩, fun ⟨h₁, h₂, h₃, h₄⟩ => ⟨h₁, h₂, h₃, h₄⟩⟩

inductive Call where
  | allocate (layout : Heap.Layout) (page : Option Nat)
  | deallocate (pointer : Nat)
  | reclaim
  | store (address : Nat) (byte : UInt8)

/-- Owners write to their objects, and anything may happen to the memory outside the pages. -/
def State.Writable (s : State) (address : Nat) : Prop :=
  (∃ live ∈ s.live, live.pointer ≤ address ∧ address < live.pointer + live.layout.size) ∨
    ∀ page ∈ s.slabs.pages, address < page ∨ page + pageSize ≤ address

instance (s : State) (address : Nat) : Decidable (s.Writable address) :=
  inferInstanceAs (Decidable (_ ∨ _))

/-- A layout without a class goes to the heap. After `deallocate` the object is its owner's no more,
whatever the call answers. -/
def State.step (s : State) : Call → State
  | .allocate layout page =>
    match classOf layout with
    | none => s
    | some c =>
      if ∀ p ∈ page, FreshPage s p then
        match allocate c page s.slabs with
        | (.ok (some pointer), slabs) => ⟨slabs, ⟨pointer, layout⟩ :: s.live⟩
        | (.ok none, slabs) => ⟨slabs, s.live⟩
        | (.error _, _) => s
      else s
  | .deallocate pointer =>
    match s.live.find? fun live => live.pointer == pointer with
    | none => s
    | some live =>
      match classOf live.layout with
      | none => s
      | some c =>
        match release pointer c s.slabs with
        | (.ok _, slabs) => ⟨slabs, s.live.eraseP fun live => live.pointer == pointer⟩
        | (.error _, _) => s
  | .reclaim =>
    match reclaim s.slabs with
    | (.ok _, slabs) => ⟨slabs, s.live⟩
    | (.error _, _) => s
  | .store address byte =>
    if s.Writable address then
      { s with slabs := { s.slabs with memory := s.slabs.memory.poke address byte } }
    else s

def State.Unmarked (s : State) : Call → Prop
  | .deallocate pointer =>
    (∃ live ∈ s.live, live.pointer = pointer) → s.slabs.memory.load (pointer + 8) ≠ poison
  | _ => True

def pageOf (address : Nat) : Nat := address / pageSize * pageSize

def objects (page : Nat) (c : Class) : List Nat :=
  (List.range (capacityOf c)).map fun index => page + headerSize + index * objectSize c

def State.LiveAt (s : State) (pointer : Nat) (c : Class) : Prop :=
  ∃ live ∈ s.live, live.pointer = pointer ∧ classOf live.layout = some c

instance (s : State) (pointer : Nat) (c : Class) : Decidable (s.LiveAt pointer c) :=
  inferInstanceAs (Decidable (∃ live ∈ s.live, _))

def State.ObjectAt (s : State) (pointer : Nat) (c : Class) : Prop :=
  s.slabs.memory.load (pageOf pointer + classOffset) = c.val ∧ pointer ∈ objects (pageOf pointer) c

/-- The mark of a free object tells whether an object is free. -/
def State.Told (s : State) (pointer : Nat) (c : Class) : Prop :=
  s.ObjectAt pointer c → (s.slabs.memory.load (pointer + 8) = poison ↔ ¬ s.LiveAt pointer c)

instance (s : State) (pointer : Nat) (c : Class) : Decidable (s.Told pointer c) :=
  inferInstanceAs (Decidable (_ ∧ _ → (_ ↔ ¬ _)))

/-- What an owner does, or `deallocate` of any pointer with any layout. -/
inductive Request where
  | own (call : Call)
  | deallocate (pointer : Nat) (layout : Heap.Layout)

def State.serve (s : State) : Request → State
  | .own call => s.step call
  | .deallocate pointer layout =>
    match classOf layout with
    | none => s
    | some c =>
      match release pointer c s.slabs with
      | (.ok true, slabs) => ⟨slabs, s.live.eraseP fun live => live.pointer == pointer⟩
      | (.ok false, slabs) => ⟨slabs, s.live⟩
      | (.error _, _) => s

/-- No owner's object carries the mark when it is given back, the mark tells of any other object of a slab page whether
it is free, and a pointer to elsewhere is refused. -/
def State.Regular (s : State) : Request → Prop
  | .own call => s.Unmarked call
  | .deallocate pointer layout => ∀ c, classOf layout = some c →
    if pageOf pointer ∈ s.slabs.pages then s.Told pointer c else refuses s.slabs pointer c = true

def State.livesIn (s : State) (page : Nat) : List Nat :=
  (s.live.filter fun live => pageOf live.pointer == page).map Live.pointer

/-- What the memory of the allocator stands for: the class and the free list of each slab, and the list
of slabs of each class that have a free object. -/
structure View where
  classOf : Nat → Class
  freeOf : Nat → List Nat
  partials : Class → List Nat

structure SlabsCorrect (s : State) (v : View) : Prop where
  kind : ∀ page ∈ s.slabs.pages,
    s.slabs.memory.load (page + classOffset) = (v.classOf page).val
  free : ∀ page ∈ s.slabs.pages,
    Chain s.slabs.memory.load (s.slabs.memory.load (page + freeOffset)) (v.freeOf page) 0
  objects : ∀ page ∈ s.slabs.pages,
    (v.freeOf page ++ s.livesIn page).Perm (objects page (v.classOf page))
  used : ∀ page ∈ s.slabs.pages,
    s.slabs.memory.load (page + usedOffset) = (s.livesIn page).length
  list : ∀ c, Chain s.slabs.nextOf (s.slabs.caches c).partialHead (v.partials c) 0
  members : ∀ c, (v.partials c).Nodup ∧ ∀ page, page ∈ v.partials c ↔
    page ∈ s.slabs.pages ∧ v.classOf page = c ∧ v.freeOf page ≠ []
  slabs : ∀ c, (s.slabs.caches c).slabs = s.slabs.pages.countP fun page => v.classOf page == c
  inUse : ∀ c, (s.slabs.caches c).inUse = s.live.countP fun live => classOf live.layout == some c
  held : ∀ live ∈ s.live, pageOf live.pointer ∈ s.slabs.pages ∧
    classOf live.layout = some (v.classOf (pageOf live.pointer))
  placed : ∀ live ∈ s.live, live.layout.align ∣ live.pointer ∧
    live.layout.size ≤ objectSize (v.classOf (pageOf live.pointer))
  distinct : (s.live.map Live.pointer).Nodup

end AerOS.Slab
