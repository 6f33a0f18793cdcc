import AerOS.Model.Block
import AerOS.Spec.Raid
import Mathlib.Data.Set.Card

/-!
# What the page cache must not change
-/

namespace AerOS.Block
open Lib
open Raid (Sector Run Volume Machine Exclusive)

def servingMember (volume : Volume Controller) : Option Controller :=
  ((List.range volume.count).find? fun slot => !volume.failed slot).bind volume.members

/-- The disk and the sector on it that a read of a volume's sector ends at. -/
def home (machine : Machine Controller) (volume : Volume Controller) (sector : Nat) :
    Option (Controller × Nat) :=
  if volume.sectors ≤ sector then none
  else if volume.level = .mirror then (servingMember volume).map fun member => (member, sector)
  else
    let place := Raid.locate machine volume sector 1
    (volume.members place.1).map fun member => (member, place.2.1)

def State.sector (σ : State) : Disk → Nat → Sector
  | .controller disk, sector => (σ.machine.disks disk).data sector
  | .volume index, sector =>
    match (σ.machine.volume index).bind fun volume => home σ.machine volume sector with
    | none => Buffer.zero
    | some (disk, sector) => (σ.machine.disks disk).data sector

/-- The sizes of a volume as `create` and `assemble_from` compute them from its members. -/
structure Shaped (machine : Machine Controller) (volume : Volume Controller) : Prop where
  few : volume.count ≤ Raid.maxMembers
  linear : volume.level = .linear →
    volume.sectors ≤ ((List.range volume.count).map fun slot =>
      ((volume.members slot).map machine.usable).getD 0).sum
  stripe : volume.level = .stripe → 0 < volume.chunk ∧ volume.chunk ∣ volume.perMember ∧
    volume.sectors = volume.perMember * volume.count ∧
    ∀ slot < volume.count, ∃ member, volume.members slot = some member ∧
      volume.perMember ≤ machine.usable member
  mirror : volume.level = .mirror → ∀ slot < volume.count,
    (volume.failed slot = false → volume.members slot ≠ none) ∧
    ∀ member, volume.members slot = some member → volume.sectors ≤ machine.usable member

def MirrorsEqual (machine : Machine Controller) : Prop :=
  ∀ index volume, machine.volume index = some volume → volume.level = .mirror →
    ∀ slot member slot' member', volume.Serves slot member → volume.Serves slot' member' →
    ∀ lba < volume.sectors, (machine.disks member).data lba = (machine.disks member').data lba

/-- Nothing is cached yet, no disk fills two slots, and the copies of every mirror are equal. -/
structure Fresh (σ : State) : Prop where
  cold : σ.cache = Cache.empty
  exclusive : Exclusive σ.machine
  shaped : ∀ index volume, σ.machine.volume index = some volume → Shaped σ.machine volume
  equal : MirrorsEqual σ.machine

def Free (machine : Machine Controller) (disk : Disk) : Prop :=
  ∀ member, disk = .controller member → ∀ index slot, ¬ machine.Fills index slot member

def Call.writes : Call → List Disk
  | .write disk _ _ _ => [disk]
  | .submit batch _ => (batch.filter isWrite).map Io.disk
  | _ => []

def Spares (σ : Option State) (call : Call) : Prop :=
  ∀ s, σ = some s → ∀ disk ∈ call.writes, Free s.machine disk

/-- If the call is a read that succeeds, every direct read of some of its sectors that succeeds right
after it, however the devices answer, finds the same. -/
def Transparent (env : Env) (σ : Option State) (call : Call) : Prop :=
  ∀ s, σ = some s → ∀ disk lba count, call = .read disk lba count →
    ∀ run s', call.action env s = (.ok (.sectors (some run)), s') →
    ∀ env' first length direct s'', lba ≤ first → first + length ≤ lba + count →
      readRun (devices env') disk first length s' = (.ok (some direct), s'') →
      ∀ index < length, direct index = run (first - lba + index)

def Cache.cached (cache : Cache) : Set (Fin sets × Fin ways) :=
  { slot | (cache.pages slot.1 slot.2).data.isSome }

structure Accounted (cache : Cache) : Prop where
  once : ∀ slot ∈ cache.cached, ∀ slot' ∈ cache.cached,
    (cache.pages slot.1 slot.2).disk = (cache.pages slot'.1 slot'.2).disk →
    (cache.pages slot.1 slot.2).number = (cache.pages slot'.1 slot'.2).number → slot = slot'
  resident : cache.resident = cache.cached.ncard
  limit : cache.resident ≤ cache.limit

end AerOS.Block
