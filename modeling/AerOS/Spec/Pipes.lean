import AerOS.Model.Pipes
import AerOS.Spec.Descriptors

/-!
# Pipe ends and their descriptors
-/

namespace AerOS.Descriptors

def ReadEnd (slot : Nat) (fd : ProcessFd) : Prop :=
  fd.isOpen = true ∧ fd.pipe = true ∧ fd.readable = true ∧ fd.handle = slot

def WriteEnd (slot : Nat) (fd : ProcessFd) : Prop :=
  fd.isOpen = true ∧ fd.pipe = true ∧ fd.writable = true ∧ fd.handle = slot

inductive PipeCall
  | common (call : Common)
  | pipe2 (limit : Nat) (closeOnExec copied : Bool)
  | read (descriptor room : Nat)
  | write (descriptor : Nat) (source : List UInt8)
  | openOther (limit : Nat) (fd : ProcessFd)

def Kernel.readPipe (k : Kernel) (descriptor room : Nat) : Kernel :=
  match k.lookupProcessFd descriptor with
  | some fd =>
    if fd.pipe && fd.readable then
      let pipe := (pipeRead (k.objects.pipes fd.handle) (k.objects.rings fd.handle) room).2
      { k with objects.pipes := Function.update k.objects.pipes fd.handle pipe }
    else k
  | none => k

def Kernel.writePipe (k : Kernel) (descriptor : Nat) (source : List UInt8) : Kernel :=
  match k.lookupProcessFd descriptor with
  | some fd =>
    if fd.pipe && fd.writable then
      let (_, pipe, ring) := pipeWrite (k.objects.pipes fd.handle) (k.objects.rings fd.handle) source
      { k with
        objects.pipes := Function.update k.objects.pipes fd.handle pipe
        objects.rings := Function.update k.objects.rings fd.handle ring }
    else k
  | none => k

def Kernel.pipeStep (k : Kernel) : PipeCall → Kernel
  | .common call => k.common call
  | .pipe2 limit closeOnExec copied => (k.linuxPipe2 limit closeOnExec copied).2
  | .read descriptor room => k.readPipe descriptor room
  | .write descriptor source => k.writePipe descriptor source
  | .openOther limit fd =>
    if fd.pipe = false ∧ fd.standard ≠ devicePtmx then ((k.installProcessFd limit fd).map (·.2)).getD k else k

/-- The flags of every pipe say what descriptors there are, and so do the answers of the calls. -/
structure PipesExact (k : Kernel) : Prop where
  reads : ∀ slot < pipeCount, (k.objects.pipes slot).readOpen = true ↔ k.processes.Some (ReadEnd slot)
  writes : ∀ slot < pipeCount, (k.objects.pipes slot).writeOpen = true ↔ k.processes.Some (WriteEnd slot)
  used : ∀ slot < pipeCount, (k.objects.pipes slot).used = true ↔
    (k.objects.pipes slot).readOpen = true ∨ (k.objects.pipes slot).writeOpen = true
  endOfFile : ∀ slot < pipeCount, (k.objects.pipes slot).used = true → (k.objects.pipes slot).length = 0 →
    ∀ room, (pipeRead (k.objects.pipes slot) (k.objects.rings slot) room).1 = .done (.ok []) ↔
      ¬ k.processes.Some (WriteEnd slot)
  broken : ∀ slot < pipeCount, ∀ source, (pipeWrite (k.objects.pipes slot) (k.objects.rings slot) source).1 =
    .done (.error 32) ↔ ¬ k.processes.Some (ReadEnd slot)

end AerOS.Descriptors
