import AerOS.Model.Raid
import AerOS.Lib.Run

/-!
# What a set of volumes must keep

The machine is run beside a ledger of the data written to each volume.
-/

namespace AerOS.Raid
variable {D : Type}

def Machine.Fills (machine : Machine D) (index slot : Nat) (member : D) : Prop :=
  ∃ volume, machine.volume index = some volume ∧ slot < maxMembers ∧
    volume.members slot = some member

def Exclusive (machine : Machine D) : Prop :=
  ∀ member index slot index' slot', machine.Fills index slot member →
    machine.Fills index' slot' member → index = index' ∧ slot = slot'

def Machine.initial (disks : D → Disk) : Machine D := ⟨fun _ => none, disks, 0⟩

inductive Event (D : Type) where
  | call (io : Answers D) (call : Call D)
  | change (disks : D → Disk)

def Machine.step [DecidableEq D] (machine : Machine D) : Event D → Machine D
  | .call io call => (call.run io machine).2
  | .change disks => { machine with disks := disks }

def Machine.header (machine : Machine D) (member : D) : Option Header :=
  if (machine.disks member).sectors = 0 then none
  else decodeHeader ((machine.disks member).data ((machine.disks member).sectors - 1))

/-- A replacement fills no slot but the one it is put into, and the disks given to be assembled that
are members already do not name another volume in their header. -/
def MembersFree (machine : Machine D) : Event D → Prop
  | .call _ (.replace _ index slot member) =>
    ∀ index' slot', machine.Fills index' slot' member → index' = index ∧ slot' = slot
  | .call _ (.assembleFrom members) =>
    ∀ member ∈ members, ∀ index volume slot, machine.volume index = some volume →
      slot < maxMembers → volume.members slot = some member →
      ∀ header, machine.header member = some header → header.uuid = volume.uuid
  | _ => True

structure Volume.Serves (volume : Volume D) (slot : Nat) (member : D) : Prop where
  bound : slot < volume.count
  working : volume.failed slot = false
  member : volume.members slot = some member

/-- What is known of a volume: the data of the latest successful writes, and the number of sectors on
which its members have been made equal. -/
structure Ledger where
  written : Nat → Option Sector
  synced : Nat

structure System (D : Type) where
  machine : Machine D
  ledger : Uuid → Option Ledger

def System.initial (disks : D → Disk) : System D := ⟨Machine.initial disks, fun _ => none⟩

def Ledger.write (ledger : Ledger) (lba count : Nat) (data : Run) : Ledger :=
  { ledger with
    written := fun sector =>
      if lba ≤ sector ∧ sector < lba + count then some (data (sector - lba))
      else ledger.written sector }

def Call.record (call : Call D) (machine : Machine D) (ledger : Uuid → Option Ledger) :
    Uuid → Option Ledger :=
  match call with
  | .create _ uuid _ _ members =>
    Function.update ledger uuid
      (some ⟨fun _ => none, (members.map machine.usable).foldl min (2 ^ 64 - 1)⟩)
  | .write index lba count _ data =>
    match machine.volume index with
    | none => ledger
    | some volume =>
      Function.update ledger volume.uuid
        ((ledger volume.uuid).map fun old => old.write lba count data)
  | .replace _ index _ _ =>
    match machine.volume index with
    | none => ledger
    | some volume =>
      Function.update ledger volume.uuid
        ((ledger volume.uuid).map fun old => { old with synced := min old.synced volume.sectors })
  | _ => ledger

def System.step [DecidableEq D] (s : System D) (event : Answers D × Call D) : System D :=
  let (success, machine) := event.2.run event.1 s.machine
  ⟨machine, if success then event.2.record s.machine s.ledger else s.ledger⟩

structure MirrorsAgree (s : System D) : Prop where
  equal : ∀ index volume, s.machine.volume index = some volume → volume.level = .mirror →
    ∀ slot member slot' member', volume.Serves slot member → volume.Serves slot' member' →
    ∀ lba < volume.sectors,
      (s.machine.disks member).data lba = (s.machine.disks member').data lba
  latest : ∀ index volume, s.machine.volume index = some volume → volume.level = .mirror →
    ∀ ledger, s.ledger volume.uuid = some ledger →
    ∀ slot member, volume.Serves slot member →
    ∀ lba < volume.sectors, ∀ sector, ledger.written lba = some sector →
      (s.machine.disks member).data lba = sector

def Machine.readable (machine : Machine D) (io : Answers D) : Nat → List D → List (D × Header)
  | _, [] => []
  | turn, member :: rest =>
    let sectors := (machine.disks member).sectors
    if sectors = 0 then machine.readable io turn rest
    else if io.read turn member (sectors - 1) then
      match machine.header member with
      | some header => (member, header) :: machine.readable io (turn + 1) rest
      | none => machine.readable io (turn + 1) rest
    else machine.readable io (turn + 1) rest

/-- The disk that `assemble_from` puts into a slot: the last one given that names the slot and the
volume of the first. -/
def kept (first : D × Header) (rest : List (D × Header)) (slot : Nat) : Option (D × Header) :=
  (first :: rest).reverse.find? fun entry => entry.2.uuid = first.2.uuid ∧ entry.2.slot = slot

/-- All of the members that the newest header counts as working are there and up to date, and the
volume comes back no larger than it has been made equal. -/
structure Complete (s : System D) (first : D × Header) (rest : List (D × Header)) : Prop where
  current : ∀ slot entry, kept first rest slot = some entry →
    (∀ slot' other, kept first rest slot' = some other → other.2.events ≤ entry.2.events) →
    ∀ slot' < entry.2.count, entry.2.failed.testBit slot' = false →
      ∃ other, kept first rest slot' = some other ∧ other.2.events = entry.2.events
  known : ∃ ledger, s.ledger first.2.uuid = some ledger ∧
    ∃ slot entry, slot < first.2.count ∧ kept first rest slot = some entry ∧
      s.machine.usable entry.1 ≤ ledger.synced

def Call.members : Call D → List D
  | .create _ _ _ _ members | .assembleFrom members => members
  | .replace _ _ _ member => [member]
  | _ => []

/-- What a call must meet for the mirrors to stay in agreement. Headers can always be written, the counts of changes
do not run out and no disk that stands for a volume becomes a member; beyond that each call has its own condition. -/
structure Orderly (volumeOf : D → Option Nat) (s : System D) (event : Answers D × Call D) : Prop where
  headers : ∀ turn member,
    event.1.write turn member ((s.machine.disks member).sectors - 1) = .done
  events : ∀ index volume, s.machine.volume index = some volume →
    volume.events + maxMembers < 2 ^ 64
  physical : ∀ member ∈ event.2.members, volumeOf member = none
  call : match event.2 with
    | .create _ uuid level _ members =>
      s.ledger uuid = none ∧
      (∀ member header, s.machine.header member = some header → header.uuid ≠ uuid) ∧
      (level = .mirror → ∀ member ∈ members, ∀ member' ∈ members, ∀ lba,
        (∀ other ∈ members, lba < s.machine.usable other) →
        (s.machine.disks member).data lba = (s.machine.disks member').data lba)
    | .assembleFrom members =>
      ∀ first rest, s.machine.readable event.1 s.machine.transfers members = first :: rest →
        Complete s first rest
    | .write index lba count _ _ =>
      ∀ volume, s.machine.volume index = some volume → volume.level = .mirror →
        (∃ slot member, volume.Serves slot member ∧
          ∀ turn, event.1.write turn member lba = .done) ∨
        (∀ slot member, volume.Serves slot member → ∀ turn left,
          event.1.write turn member lba = .failed left →
          ∀ sector < count, left sector = (s.machine.disks member).data (lba + sector))
    | .replace _ index slot member =>
      (∀ index' slot', s.machine.Fills index' slot' member → index' = index ∧ slot' = slot) ∧
      ∀ volume, s.machine.volume index = some volume →
        (∀ header, s.machine.header member = some header →
          header.uuid = volume.uuid ∧ header.events < volume.events) ∨
        ∀ turn disk lba, event.1.read turn disk lba = true ∧ event.1.write turn disk lba = .done
    | _ => True

/-- The sectors of the volume have places on its members, different ones for different sectors and all
below the headers. Wherever a transfer stands, it goes on with a run of sectors that follows the places. -/
structure Mapped (machine : Machine D) (volume : Volume D) (place : Nat → D × Nat) : Prop where
  injective : ∀ lba < volume.sectors, ∀ lba' < volume.sectors, place lba = place lba' → lba = lba'
  usable : ∀ lba < volume.sectors, (place lba).2 < machine.usable (place lba).1
  located : ∀ lba want, 0 < want → lba + want ≤ volume.sectors →
    ∃ slot member offset run, locate machine volume lba want = (slot, offset, run) ∧
      volume.members slot = some member ∧ 0 < run ∧ run ≤ want ∧
      ∀ k < run, place (lba + k) = (member, offset + k)

inductive Made [DecidableEq D] (machine : Machine D) (index : Nat) : Prop where
  | create (io : Answers D) (inUse : D → Bool) (uuid : Uuid) (level : Level) (chunk : Nat) (members : List D)
      (before : Machine D) (made : Raid.create io inUse uuid level chunk members before = (.ok index, machine))
  | assembleFrom (io : Answers D) (members : List D) (before : Machine D)
      (made : Raid.assembleFrom io members before = (.ok index, machine))

inductive Request where
  | read (lba count available : Nat)
  | write (lba count available : Nat) (data : Run)

/-- The machine, and the data of the last write of each sector unless that write failed. -/
structure Used (D : Type) where
  machine : Machine D
  written : Nat → Option Sector

def Accepted (volume : Volume D) (lba count available : Nat) : Prop :=
  0 < count ∧ count ≤ available ∧ lba + count ≤ volume.sectors

instance (volume : Volume D) (lba count available : Nat) : Decidable (Accepted volume lba count available) :=
  inferInstanceAs (Decidable (_ ∧ _ ∧ _))

def Used.step [DecidableEq D] (index : Nat) (volume : Volume D) (used : Used D) :
    Answers D × Request → Used D
  | (io, .read lba count available) =>
    { used with machine := (read io index lba count available used.machine).2 }
  | (io, .write lba count available data) =>
    let (result, machine) := write io index lba count available data used.machine
    let success := result.toOption = some true
    { machine
      written := fun sector =>
        if Accepted volume lba count available ∧ lba ≤ sector ∧ sector < lba + count then
          if success then some (data (sector - lba)) else none
        else used.written sector }

def Answers.Good (io : Answers D) : Prop :=
  ∀ turn member lba, io.read turn member lba = true ∧ io.write turn member lba = .done

/-- A transfer of the volume ends, with success if it is accepted and the disks do their part, and a
read that succeeds returns what was written last. -/
structure Remembers [DecidableEq D] (index : Nat) (volume : Volume D) (place : Nat → D × Nat)
    (used : Used D) : Prop where
  mapped : Mapped used.machine volume place
  read : ∀ io lba count available, ∃ result machine',
    Raid.read io index lba count available used.machine = (.ok result, machine') ∧
      (∀ run, result = some run → ∀ k < count, ∀ sector, used.written (lba + k) = some sector →
        run k = sector) ∧
      (io.Good → Accepted volume lba count available → result.isSome)
  write : ∀ io lba count available data, ∃ success machine',
    Raid.write io index lba count available data used.machine = (.ok success, machine') ∧
      (io.Good → Accepted volume lba count available → success = true)

end AerOS.Raid
