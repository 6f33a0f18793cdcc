import AerOS.Lib.Action
import AerOS.Model.Crc

/-!
# Software volumes (`kernel/src/raid.rs`)

The disks are named by a type `D`; how they answer, which of them are in use elsewhere and the random bytes
of a new volume's name are inputs. Arrays are functions of the index. Every disk has contents of its own, so none of
them stands for another volume. A transfer is of fewer than 2^55 sectors: from there on `count * SECTOR` overflows.
-/

namespace AerOS.Raid
open Lib Lib.Action Function

def maxVolumes : Nat := 2

def maxMembers : Nat := 4

def runLength : Nat := 8

abbrev Sector := Buffer 512

abbrev Uuid := BitVec 128

inductive Level where
  | linear | stripe | mirror
  deriving DecidableEq, Repr

inductive Error where
  | members | disk | busy | slot
  deriving DecidableEq, Repr

/-- How a call ends early: with an error for its caller, in a failed overflow check, or never. -/
inductive Fault where
  | refused (error : Error)
  | panic
  | hang
  deriving DecidableEq, Repr

structure Volume (D : Type) where
  level : Level
  chunk : Nat
  members : Nat → Option D
  failed : Nat → Bool
  count : Nat
  perMember : Nat
  sectors : Nat
  uuid : Uuid
  events : Nat

structure Disk where
  sectors : Nat
  data : Nat → Sector

abbrev Run := Nat → Sector

def Disk.store (disk : Disk) (lba count : Nat) (run : Run) : Disk :=
  { disk with
    data := fun sector =>
      if lba ≤ sector ∧ sector < lba + count then run (sector - lba) else disk.data sector }

/-- The answer to a write; one that fails leaves anything in the sectors it names. -/
inductive Written where
  | done
  | failed (left : Run)

/-- How the disks answer transfers, by the number of the transfer, the disk and the first sector. -/
structure Answers (D : Type) where
  read : Nat → D → Nat → Bool
  write : Nat → D → Nat → Written

structure Machine (D : Type) where
  volumes : Nat → Option (Volume D)
  disks : D → Disk
  transfers : Nat

abbrev Step (D α : Type) := Action (Machine D) Fault α

def Machine.volume {D : Type} (machine : Machine D) (index : Nat) : Option (Volume D) :=
  if index < maxVolumes then machine.volumes index else none

def Machine.usable {D : Type} (machine : Machine D) (member : D) : Nat :=
  (machine.disks member).sectors - 1

def magic : List UInt8 := [0x41, 0x45, 0x52, 0x4f, 0x53, 0x52, 0x44, 0x31]

structure Header where
  uuid : Uuid
  level : Level
  count : Nat
  slot : Nat
  chunk : Nat
  events : Nat
  failed : Nat
  deriving DecidableEq, Repr

def Level.code : Level → UInt8
  | .linear => 0
  | .stripe => 1
  | .mirror => 2

def Level.ofCode (code : UInt8) : Option Level :=
  if code = 0 then some .linear
  else if code = 1 then some .stripe
  else if code = 2 then some .mirror
  else none

def failedBits (failed : Nat → Bool) (count : Nat) : Nat :=
  (List.range count).foldl (fun bits index => bits ||| (failed index).toNat <<< index) 0

def headerFields {D : Type} (volume : Volume D) (slot : Nat) : Sector :=
  let sector := Buffer.zero.put 0 magic
  let sector := sector.put 8 (leBytes 16 volume.uuid.toNat)
  let sector := sector.put 24 [volume.level.code]
  let sector := sector.put 25 [UInt8.ofNat volume.count]
  let sector := sector.put 26 [UInt8.ofNat slot]
  let sector := sector.put 28 (leBytes 4 volume.chunk)
  let sector := sector.put 32 (leBytes 8 volume.events)
  sector.put 48 [UInt8.ofNat (failedBits volume.failed volume.count)]

def encodeHeader {D : Type} (volume : Volume D) (slot : Nat) : Sector :=
  let sector := headerFields volume slot
  sector.put 56 (leBytes 4 (crc32 (sector.slice 0 56)).toNat)

def decodeHeader (sector : Sector) : Option Header :=
  if sector.slice 0 8 ≠ magic then none
  else if UInt32.ofNat (ofLe (sector.slice 56 4)) ≠ crc32 (sector.slice 0 56) then none
  else
    match Level.ofCode (sector.byte 24) with
    | none => none
    | some level =>
      let count := (sector.byte 25).toNat
      let slot := (sector.byte 26).toNat
      if count = 0 ∨ count > maxMembers ∨ slot ≥ count then none
      else
        some
          { uuid := BitVec.ofNat 128 (ofLe (sector.slice 8 16))
            level := level
            count := count
            slot := slot
            chunk := ofLe (sector.slice 28 4)
            events := ofLe (sector.slice 32 8)
            failed := (sector.byte 48).toNat }

section
variable {D : Type} [DecidableEq D] (io : Answers D)

def refuse {α : Type} (error : Error) : Step D α := throw (.refused error)

def Machine.tick (machine : Machine D) : Machine D :=
  { machine with transfers := machine.transfers + 1 }

def memberRead (member : D) (lba count : Nat) : Step D (Option Run) := do
  let machine ← get
  modify Machine.tick
  let disk := machine.disks member
  if lba + count ≤ disk.sectors ∧ io.read machine.transfers member lba then
    return some fun sector => disk.data (lba + sector)
  else
    return none

def Machine.store (machine : Machine D) (member : D) (lba count : Nat) (run : Run) : Machine D :=
  { machine with
    disks := update machine.disks member ((machine.disks member).store lba count run) }

def memberWrite (member : D) (lba count : Nat) (run : Run) : Step D Bool := do
  let machine ← get
  modify Machine.tick
  if lba + count > (machine.disks member).sectors then
    return false
  match io.write machine.transfers member lba with
  | .done =>
    modify fun machine => machine.store member lba count run
    return true
  | .failed left =>
    modify fun machine => machine.store member lba count left
    return false

def readHeader (member : D) : Step D (Option Header) := do
  let machine ← get
  let sectors := (machine.disks member).sectors
  if sectors = 0 then
    return none
  match ← memberRead io member (sectors - 1) 1 with
  | none => return none
  | some run => return decodeHeader (run 0)

def persistSlot (volume : Volume D) (slot : Nat) : Step D Unit := do
  if volume.failed slot then
    return ()
  match volume.members slot with
  | none => return ()
  | some member =>
    let machine ← get
    let sectors := (machine.disks member).sectors
    if sectors = 0 then
      return ()
    let _ ← memberWrite io member (sectors - 1) 1 fun _ => encodeHeader volume slot
    return ()

def persist (index : Nat) : Step D Unit := do
  let machine ← get
  match machine.volume index with
  | none => return ()
  | some volume => forEach (List.range volume.count) (persistSlot io volume)

def Machine.put (machine : Machine D) (index : Nat) (volume : Option (Volume D)) : Machine D :=
  { machine with volumes := update machine.volumes index volume }

def setVolume (index : Nat) (volume : Option (Volume D)) : Step D Unit :=
  modify fun machine => machine.put index volume

def bump (index : Nat) (volume : Volume D) : Step D Unit := do
  setVolume index (some volume)
  if volume.events + 1 < 2 ^ 64 then
    setVolume index (some { volume with events := volume.events + 1 })
    persist io index
  else
    throw .panic

def healthy (volume : Volume D) : Nat :=
  ((List.range volume.count).filter fun slot => !volume.failed slot).length

def memberFailed (index slot : Nat) : Step D Bool := do
  let machine ← get
  match machine.volume index with
  | none => return false
  | some volume => return volume.failed slot

def markFailed (index slot : Nat) : Step D Unit := do
  let machine ← get
  match machine.volume index with
  | none => return ()
  | some volume =>
    -- The last working copy stays in service whatever happens to it.
    if healthy volume > 1 then
      bump io index { volume with failed := update volume.failed slot true }

def wrongCount (level : Level) (count : Nat) : Bool :=
  match level with
  | .linear => count = 0 || decide (count > maxMembers)
  | .stripe | .mirror => !(decide (2 ≤ count) && decide (count ≤ maxMembers))

def chunkOf (level : Level) (chunk : Nat) : Option Nat :=
  match level with
  | .stripe =>
    if chunk = 0 ∨ 2 ^ chunk.log2 ≠ chunk ∨ chunk > 256 then none else some chunk
  | .linear | .mirror => some runLength

def freeVolume (volumes : Nat → Option (Volume D)) : Option Nat :=
  (List.range maxVolumes).find? fun index => (volumes index).isNone

def Volume.has (volume : Volume D) (member : D) : Bool :=
  (List.range maxMembers).any fun slot => volume.members slot = some member

def checkMembers (inUse : D → Bool) (machine : Machine D) :
    List D → List D → Nat → Nat → Except Fault (Nat × Nat)
  | _, [], smallest, total => .ok (smallest, total)
  | before, member :: rest, smallest, total =>
    let sectors := machine.usable member
    if sectors = 0 then .error (.refused .disk)
    else if member ∈ before then .error (.refused .busy)
    else if (List.range maxVolumes).any fun index =>
        (machine.volumes index).any fun volume => volume.has member then
      .error (.refused .busy)
    else if inUse member then .error (.refused .busy)
    else if total + sectors ≥ 2 ^ 64 then .error .panic
    else checkMembers inUse machine (before ++ [member]) rest (min smallest sectors) (total + sectors)

def sizes (level : Level) (chunk count smallest total : Nat) : Nat × Nat :=
  match level with
  | .linear => (0, total)
  | .stripe => (smallest / chunk * chunk, smallest / chunk * chunk * count)
  | .mirror => (smallest, smallest)

def create (inUse : D → Bool) (uuid : Uuid) (level : Level) (chunk : Nat) (members : List D) :
    Step D Nat := do
  let count := members.length
  if wrongCount level count then
    refuse .members
  match chunkOf level chunk with
  | none => refuse .members
  | some chunk =>
    let machine ← get
    match freeVolume machine.volumes with
    | none => refuse .slot
    | some slot =>
      match checkMembers inUse machine [] members (2 ^ 64 - 1) 0 with
      | .error fault => throw fault
      | .ok (smallest, total) =>
        let (perMember, sectors) := sizes level chunk count smallest total
        if level = .stripe ∧ perMember = 0 then
          refuse .disk
        setVolume slot <| some
          { level, chunk, count, perMember, sectors, uuid
            members := fun index => members[index]?
            failed := fun _ => false
            events := 1 }
        persist io slot
        return slot

structure Found (D : Type) where
  first : Option Header
  slots : Nat → Option (D × Header)

def Found.add (found : Found D) (member : D) (header : Header) : Found D :=
  match found.first with
  | some other =>
    if other.uuid ≠ header.uuid then found
    else { found with slots := update found.slots header.slot (some (member, header)) }
  | none => ⟨some header, update found.slots header.slot (some (member, header))⟩

def gather : List D → Found D → Step D (Found D)
  | [], found => return found
  | member :: rest, found => do
    match ← readHeader io member with
    | none => gather rest found
    | some header => gather rest (found.add member header)

def Found.entries (found : Found D) (count : Nat) : List (D × Header) :=
  (List.range count).filterMap found.slots

def Found.newest (found : Found D) : Nat :=
  (found.entries maxMembers).foldl (fun newest entry => max newest entry.2.events) 0

def Found.newestFailed (found : Found D) : Nat :=
  match (found.entries maxMembers).find? fun entry => entry.2.events = found.newest with
  | some entry => entry.2.failed
  | none => 0

def Found.failed (found : Found D) (slot : Nat) : Bool :=
  match found.slots slot with
  | some (_, header) => decide (header.events < found.newest) || found.newestFailed.testBit slot
  | none => true

def Found.present (found : Found D) (count : Nat) : Nat :=
  ((List.range count).filter fun slot => !found.failed slot).length

def assembleFrom (members : List D) : Step D Nat := do
  let found ← gather io members ⟨none, fun _ => none⟩
  match found.first with
  | none => refuse .disk
  | some template =>
    let machine ← get
    let count := template.count
    let chunk := max template.chunk 1
    let given := (found.entries count).map fun entry => machine.usable entry.1
    let smallest := given.foldl min (2 ^ 64 - 1)
    if given.sum ≥ 2 ^ 64 then
      throw .panic
    if template.level ≠ .mirror ∧ found.present count ≠ count then
      refuse .disk
    if found.present count = 0 then
      refuse .disk
    if (List.range maxVolumes).any fun index =>
        (machine.volumes index).any fun other => other.uuid = template.uuid then
      refuse .busy
    match freeVolume machine.volumes with
    | none => refuse .slot
    | some slot =>
      let (perMember, sectors) := sizes template.level chunk count smallest given.sum
      setVolume slot <| some
        { level := template.level
          chunk, count, perMember, sectors
          members := fun slot => if slot < count then (found.slots slot).map Prod.fst else none
          failed := fun slot => decide (slot < count) && found.failed slot
          uuid := template.uuid
          events := found.newest }
      return slot

def stop (index : Nat) : Step D Bool := do
  let machine ← get
  match machine.volume index with
  | none => return false
  | some _ =>
    setVolume index none
    return true

def fail (index slot : Nat) : Step D Bool := do
  let machine ← get
  match machine.volume index with
  | none => return false
  | some volume =>
    if volume.level ≠ .mirror ∨ slot ≥ volume.count then
      return false
    if volume.failed slot ∨ healthy volume < 2 then
      return false
    bump io index { volume with failed := update volume.failed slot true }
    return true

def locateLinear (machine : Machine D) (volume : Volume D) (lba want : Nat) :
    Nat → Nat → Nat → Nat × Nat × Nat
  | 0, _, _ => (0, 0, 0)
  | left + 1, slot, start =>
    let length := ((volume.members slot).map machine.usable).getD 0
    if lba < start + length then (slot, lba - start, min (start + length - lba) want)
    else locateLinear machine volume lba want left (slot + 1) (start + length)

def locate (machine : Machine D) (volume : Volume D) (lba want : Nat) : Nat × Nat × Nat :=
  match volume.level with
  | .stripe =>
    let chunkNumber := lba / volume.chunk
    let within := lba % volume.chunk
    (chunkNumber % volume.count, chunkNumber / volume.count * volume.chunk + within,
      min (volume.chunk - within) want)
  | .linear | .mirror => locateLinear machine volume lba want volume.count 0 0

inductive Direction where
  | read
  | write (data : Run)

def transferRun (direction : Direction) (done : Nat) (member : D) (lba count : Nat) :
    Step D (Option Run) :=
  match direction with
  | .read => memberRead io member lba count
  | .write data => do
    let run : Run := fun sector => data (done + sector)
    if ← memberWrite io member lba count run then
      return some run
    return none

def splice (buffer : Run) (done count : Nat) (run : Run) : Run := fun sector =>
  if done ≤ sector ∧ sector < done + count then run (sector - done) else buffer sector

/-- The loop of `transfer` for a linear volume or a stripe. A turn that makes no progress would be
repeated forever. -/
def spread (volume : Volume D) (lba count : Nat) (direction : Direction) :
    Nat → Nat → Run → Step D (Option Run)
  | 0, done, buffer => if done < count then throw .hang else return some buffer
  | fuel + 1, done, buffer => do
    if count ≤ done then
      return some buffer
    let machine ← get
    let (slot, memberLba, run) := locate machine volume (lba + done) (count - done)
    match volume.members slot with
    | none => return none
    | some member =>
      match ← transferRun io direction done member memberLba run with
      | none => return none
      | some piece =>
        spread volume lba count direction fuel (done + run) (splice buffer done run piece)

def mirrorRead (index : Nat) (volume : Volume D) (lba count : Nat) :
    List Nat → Step D (Option Run)
  | [] => return none
  | slot :: rest => do
    if ← memberFailed index slot then
      mirrorRead index volume lba count rest
    else
      match volume.members slot with
      | none => mirrorRead index volume lba count rest
      | some member =>
        match ← memberRead io member lba count with
        | some run => return some run
        | none =>
          markFailed io index slot
          mirrorRead index volume lba count rest

def mirrorWrite (index : Nat) (volume : Volume D) (lba count : Nat) (data : Run) :
    List Nat → Bool → Step D Bool
  | [], wrote => return wrote
  | slot :: rest, wrote => do
    if ← memberFailed index slot then
      mirrorWrite index volume lba count data rest wrote
    else
      match volume.members slot with
      | none => mirrorWrite index volume lba count data rest wrote
      | some member =>
        if ← memberWrite io member lba count data then
          mirrorWrite index volume lba count data rest true
        else
          markFailed io index slot
          mirrorWrite index volume lba count data rest wrote

/-- `available` is the length of the caller's buffer in whole sectors. A read returns the sectors it
has put there. -/
def transfer (index lba count available : Nat) (direction : Direction) : Step D (Option Run) := do
  let machine ← get
  match machine.volume index with
  | none => return none
  | some volume =>
    if count = 0 ∨ available < count ∨ lba + count > volume.sectors then
      return none
    match volume.level, direction with
    | .mirror, .read => mirrorRead io index volume lba count (List.range volume.count)
    | .mirror, .write data =>
      if ← mirrorWrite io index volume lba count data (List.range volume.count) false then
        return some data
      return none
    | _, direction =>
      spread io volume lba count direction count 0 fun _ => Buffer.zero

def read (index lba count available : Nat) : Step D (Option Run) :=
  transfer io index lba count available .read

def write (index lba count available : Nat) (data : Run) : Step D Bool := do
  return (← transfer io index lba count available (.write data)).isSome

def copyOver (source member : D) (sectors : Nat) : Nat → Nat → Step D Bool
  | 0, lba => if lba < sectors then throw .hang else return true
  | fuel + 1, lba => do
    if sectors ≤ lba then
      return true
    let run := min (sectors - lba) runLength
    match ← memberRead io source lba run with
    | none => return false
    | some buffer =>
      if ← memberWrite io member lba run buffer then
        copyOver source member sectors fuel (lba + run)
      else
        return false

def replace (inUse : D → Bool) (index slot : Nat) (member : D) : Step D Unit := do
  let machine ← get
  match machine.volume index with
  | none => refuse .slot
  | some volume =>
    if volume.level ≠ .mirror ∨ slot ≥ volume.count then
      refuse .slot
    if machine.usable member < volume.sectors then
      refuse .disk
    if inUse member then
      refuse .busy
    let candidate := (List.range volume.count).find? fun candidate =>
      candidate ≠ slot && !volume.failed candidate
    match candidate.bind volume.members with
    | none => refuse .disk
    | some source =>
      if ← copyOver io source member volume.sectors volume.sectors 0 then
        bump io index
          { volume with
            members := update volume.members slot (some member)
            failed := update volume.failed slot false }
      else
        refuse .disk

end

inductive Call (D : Type) where
  | create (inUse : D → Bool) (uuid : Uuid) (level : Level) (chunk : Nat) (members : List D)
  | assembleFrom (members : List D)
  | read (index lba count available : Nat)
  | write (index lba count available : Nat) (data : Run)
  | fail (index slot : Nat)
  | replace (inUse : D → Bool) (index slot : Nat) (member : D)
  | stop (index : Nat)

def settle {D : Type} (reply : Except Fault Bool × Machine D) : Bool × Machine D :=
  match reply with
  | (.ok success, machine) => (success, machine)
  | (.error _, machine) => (false, machine)

def Call.action {D : Type} [DecidableEq D] (io : Answers D) : Call D → Step D Bool
  | .create inUse uuid level chunk members => do
    let _ ← Raid.create io inUse uuid level chunk members
    return true
  | .assembleFrom members => do
    let _ ← Raid.assembleFrom io members
    return true
  | .read index lba count available => do
    return (← Raid.read io index lba count available).isSome
  | .write index lba count available data => Raid.write io index lba count available data
  | .fail index slot => Raid.fail io index slot
  | .replace inUse index slot member => do
    Raid.replace io inUse index slot member
    return true
  | .stop index => Raid.stop index

def Call.run {D : Type} [DecidableEq D] (io : Answers D) (call : Call D) (machine : Machine D) :
    Bool × Machine D :=
  settle (call.action io machine)

end AerOS.Raid
