import AerOS.Model.Raid
import Mathlib.Data.List.FinRange

/-!
# The block layer (`kernel/src/block.rs`)

The sectors of the disks and the table of software volumes are the machine of `Raid`. How the disks answer,
the memory pressure, the memory left for a page and the order an unstable sort leaves equal keys in
are inputs.
-/

namespace AerOS.Block
open Lib Lib.Action Function
open Raid (Sector Run Volume Machine Fault)

abbrev maxRun : Nat := 8

abbrev sets : Nat := 64

abbrev ways : Nat := 4

def cachePages : Nat := sets * ways

def batchMax : Nat := 64

inductive Controller where
  | ahci (index : Nat)
  | nvme
  | usb
  | sd
  | virtio
  deriving DecidableEq, Repr

inductive Disk where
  | controller (disk : Controller)
  | volume (index : Nat)
  deriving DecidableEq, Repr

def Disk.index : Disk → Nat
  | .controller (.ahci index) => min index 3
  | .controller .nvme => 4
  | .controller .usb => 5
  | .controller .sd => 6
  | .controller .virtio => 7
  | .volume index => 9 + min index 1

structure Page where
  disk : Disk
  number : Nat
  data : Option Run
  stamp : Nat

structure Cache where
  pages : Fin sets → Fin ways → Page
  clock : Nat
  resident : Nat
  limit : Nat
  lastMiss : Nat → Nat

def Page.empty : Page := ⟨.controller .nvme, 0, none, 0⟩

def Cache.empty : Cache where
  pages := fun _ _ => Page.empty
  clock := 0
  resident := 0
  limit := cachePages
  lastMiss := fun _ => 2 ^ 64 - 1

def Page.holds (page : Page) (disk : Disk) (number : Nat) : Bool :=
  page.data.isSome && page.disk = disk && page.number = number

def setOf (disk : Disk) (number : Nat) : Fin sets :=
  Fin.ofNat sets (number ^^^ disk.index * 0x9e37 % 2 ^ 64)

namespace Cache

def put (cache : Cache) (set : Fin sets) (way : Fin ways) (page : Page) : Cache :=
  { cache with pages := update cache.pages set (update (cache.pages set) way page) }

def find (cache : Cache) (disk : Disk) (number : Nat) : Option (Fin sets × Fin ways) :=
  let set := setOf disk number
  ((List.finRange ways).find? fun way => (cache.pages set way).holds disk number).map fun way =>
    (set, way)

def dropPage (cache : Cache) (set : Fin sets) (way : Fin ways) : Cache :=
  let page := cache.pages set way
  if page.data.isSome then
    { cache.put set way { page with data := none } with resident := cache.resident - 1 }
  else cache

def tick (cache : Cache) : Cache := { cache with clock := cache.clock + 1 }

def touch (cache : Cache) (set : Fin sets) (way : Fin ways) : Cache :=
  cache.tick.put set way { cache.pages set way with stamp := cache.clock + 1 }

def victim (cache : Cache) (set : Fin sets) : Fin ways :=
  (List.finRange ways).foldl
    (fun best way => if (cache.pages set way).stamp < (cache.pages set best).stamp then way else best)
    (Fin.ofNat ways 0)

def insert (cache : Cache) (disk : Disk) (number : Nat) (data : Run) : Cache :=
  let set := setOf disk number
  let page : Page := ⟨disk, number, some data, cache.clock + 1⟩
  match (List.finRange ways).find? fun way => (cache.pages set way).data.isNone with
  | some way =>
    if cache.limit ≤ cache.resident then cache
    else { cache.tick.put set way page with resident := cache.resident + 1 }
  | none => cache.tick.put set (cache.victim set) page

def invalidatePage (disk : Disk) (cache : Cache) (number : Nat) : Cache :=
  match cache.find disk number with
  | some (set, way) => cache.dropPage set way
  | none => cache

def invalidate (cache : Cache) (disk : Disk) (lba count : Nat) : Cache :=
  let first := lba / maxRun
  let last := (lba + max count 1 - 1) / maxRun
  (List.range' first (last + 1 - first)).foldl (invalidatePage disk) cache

def storeSector (disk : Disk) (lba : Nat) (data : Run) (cache : Cache) (index : Nat) : Cache :=
  let sector := lba + index
  match cache.find disk (sector / maxRun) with
  | some (set, way) =>
    let cache := cache.touch set way
    let page := cache.pages set way
    cache.put set way
      { page with data := page.data.map fun run => update run (sector % maxRun) (data index) }
  | none => cache

def store (cache : Cache) (disk : Disk) (lba count : Nat) (data : Run) : Cache :=
  (List.range count).foldl (storeSector disk lba data) cache

def everySlot : List (Fin sets × Fin ways) :=
  (List.finRange sets).flatMap fun set => (List.finRange ways).map fun way => (set, way)

def invalidateDisk (cache : Cache) (disk : Disk) : Cache :=
  everySlot.foldl
    (fun cache slot =>
      if (cache.pages slot.1 slot.2).disk = disk then cache.dropPage slot.1 slot.2 else cache)
    cache

def older (cache : Cache) (oldest : Option (Fin sets × Fin ways)) (slot : Fin sets × Fin ways) :
    Option (Fin sets × Fin ways) :=
  let page := cache.pages slot.1 slot.2
  if page.data.isSome &&
      oldest.all fun best => decide (page.stamp < (cache.pages best.1 best.2).stamp) then
    some slot
  else oldest

def oldest (cache : Cache) : Option (Fin sets × Fin ways) := everySlot.foldl cache.older none

def reclaimFrom (target : Nat) : Nat → Nat → Cache → Nat × Cache
  | 0, released, cache => (released, cache)
  | turns + 1, released, cache =>
    if released < target ∧ 0 < cache.resident then
      match cache.oldest with
      | none => (released, cache)
      | some (set, way) => reclaimFrom target turns (released + 1) (cache.dropPage set way)
    else (released, cache)

def reclaim (cache : Cache) (target : Nat) : Nat × Cache :=
  cache.reclaimFrom target cache.resident 0

end Cache

structure Env where
  io : Raid.Answers Controller
  /-- `pressure_allows_caching`, by the number of the question. -/
  calm : Nat → Bool
  /-- Whether `PageBuffer::new` finds memory, by the number of the question. -/
  memory : Nat → Bool
  /-- `sort_unstable_by_key`, with the keys of the requests. -/
  sorted : (Nat → Nat × Nat) → List Nat → List Nat

structure State where
  machine : Machine Controller
  cache : Cache
  heads : Nat → Nat
  turn : Nat

abbrev M (α : Type) := Action State Fault α

def lift {α : Type} (x : Raid.Step Controller α) : M α := fun σ =>
  match x σ.machine with
  | (result, machine) => (result, { σ with machine })

def State.sectors (σ : State) : Disk → Nat
  | .controller disk => (σ.machine.disks disk).sectors
  | .volume index => ((σ.machine.volume index).map Volume.sectors).getD 0

def State.pageSectors (σ : State) (disk : Disk) (number : Nat) : Nat :=
  min (σ.sectors disk - number * maxRun) maxRun

def setCache (f : Cache → Cache) : M Unit := modify fun σ => { σ with cache := f σ.cache }

def account (disk : Disk) (lba count : Nat) : M Unit :=
  modify fun σ => { σ with heads := update σ.heads disk.index (lba + count) }

structure Device where
  read : Disk → Nat → Nat → M (Option Run)
  write : Disk → Nat → Nat → Run → M Bool

def readRun (device : Device) (disk : Disk) (lba count : Nat) : M (Option Run) := do
  account disk lba count
  device.read disk lba count

def writeRun (device : Device) (disk : Disk) (lba count : Nat) (data : Run) : M Bool := do
  account disk lba count
  let ok ← device.write disk lba count data
  setCache fun cache =>
    if ok then cache.store disk lba count data else cache.invalidate disk lba count
  return ok

section
variable (env : Env) (device : Device)

def pressureAllowsCaching : M Bool := do
  let σ ← get
  modify fun σ => { σ with turn := σ.turn + 1 }
  return env.calm σ.turn

def newPage : M Bool := do
  let σ ← get
  modify fun σ => { σ with turn := σ.turn + 1 }
  return env.memory σ.turn

def readAhead (disk : Disk) (number : Nat) : M Unit := do
  let σ ← get
  if σ.pageSectors disk number = maxRun then
    if ← pressureAllowsCaching env then
      let σ ← get
      if (σ.cache.find disk number).isNone then
        if ← newPage env then
          match ← readRun device disk (number * maxRun) maxRun with
          | none => return ()
          | some page => setCache fun cache => cache.insert disk number page

def wanted (disk : Disk) (number : Nat) : M Bool := do
  let σ ← get
  if σ.pageSectors disk number = maxRun then
    if ← pressureAllowsCaching env then
      newPage env
    else
      return false
  else
    return false

def loadPage (disk : Disk) (number : Nat) : M (Option Run) := do
  match ← readRun device disk (number * maxRun) maxRun with
  | none => return none
  | some page =>
    let σ ← get
    let previous := σ.cache.lastMiss disk.index
    setCache fun cache =>
      { cache with lastMiss := update cache.lastMiss disk.index number }.insert disk number page
    if (previous + 1) % 2 ^ 64 = number then
      readAhead env device disk (number + 1)
    return some page

def readPagePart (disk : Disk) (number within take : Nat) : M (Option Run) := do
  let σ ← get
  match σ.cache.find disk number with
  | some (set, way) =>
    setCache fun cache => cache.touch set way
    let data := (σ.cache.pages set way).data.getD fun _ => Buffer.zero
    return some fun sector => data (within + sector)
  | none =>
    if ← wanted env disk number then
      match ← loadPage env device disk number with
      | none => return none
      | some page => return some fun sector => page (within + sector)
    else
      readRun device disk (number * maxRun + within) take

def readFrom (disk : Disk) : Nat → Nat → Nat → M (Option Run)
  | 0, _, _ => return some fun _ => Buffer.zero
  | turns + 1, sector, left =>
    if left = 0 then
      return some fun _ => Buffer.zero
    else do
      let within := sector % maxRun
      let take := min left (maxRun - within)
      match ← readPagePart env device disk (sector / maxRun) within take with
      | none => return none
      | some part =>
        match ← readFrom disk turns (sector + take) (left - take) with
        | none => return none
        | some rest =>
          return some fun index => if index < take then part index else rest (index - take)

def read (disk : Disk) (lba count : Nat) : M (Option Run) := readFrom env device disk count lba count

def writeFrom (disk : Disk) : Nat → Nat → Nat → Run → M Bool
  | 0, _, _, _ => return true
  | turns + 1, lba, left, data =>
    if left = 0 then
      return true
    else do
      let run := min left maxRun
      if ← writeRun device disk lba run data then
        writeFrom disk turns (lba + run) (left - run) fun index => data (run + index)
      else
        return false

def write (disk : Disk) (lba count : Nat) (data : Run) : M Bool :=
  writeFrom device disk count lba count data

end

section
variable (env : Env)

def drivers : Device where
  read
    | .controller disk, lba, count => lift (Raid.memberRead env.io disk lba count)
    | .volume _, _, _ => return none
  write
    | .controller disk, lba, count, data => lift (Raid.memberWrite env.io disk lba count data)
    | .volume _, _, _, _ => return false

def memberRead (member : Controller) (lba count : Nat) : M (Option Run) :=
  read env (drivers env) (.controller member) lba count

def memberWrite (member : Controller) (lba count : Nat) (data : Run) : M Bool :=
  write (drivers env) (.controller member) lba count data

def persistSlot (volume : Volume Controller) (slot : Nat) : M Unit := do
  if volume.failed slot then
    return ()
  else
    match volume.members slot with
    | none => return ()
    | some member =>
      let σ ← get
      let sectors := (σ.machine.disks member).sectors
      if sectors = 0 then
        return ()
      else
        let _ ← memberWrite env member (sectors - 1) 1 fun _ => Raid.encodeHeader volume slot
        return ()

def persist (index : Nat) : M Unit := do
  let σ ← get
  match σ.machine.volume index with
  | none => return ()
  | some volume => forEach (List.range volume.count) (persistSlot env volume)

def setVolume (index : Nat) (volume : Volume Controller) : M Unit :=
  modify fun σ => { σ with machine := σ.machine.put index (some volume) }

def memberFailed (index slot : Nat) : M Bool := lift (Raid.memberFailed index slot)

def markFailed (index slot : Nat) : M Unit := do
  let σ ← get
  match σ.machine.volume index with
  | none => return ()
  | some volume =>
    if Raid.healthy volume > 1 then
      if volume.events + 1 < 2 ^ 64 then
        setVolume index
          { volume with
            failed := update volume.failed slot true
            events := volume.events + 1 }
        persist env index
      else
        throw .panic

/-- The sectors of one member in a transfer; `done` sectors of the volume's transfer are behind. -/
def transferRun (direction : Raid.Direction) (done : Nat) (member : Controller) (lba count : Nat) :
    M (Option Run) :=
  match direction with
  | .read => memberRead env member lba count
  | .write data => do
    let run : Run := fun sector => data (done + sector)
    if ← memberWrite env member lba count run then
      return some run
    else
      return none

def spread (volume : Volume Controller) (lba count : Nat) (direction : Raid.Direction) :
    Nat → Nat → Run → M (Option Run)
  | 0, done, buffer => if done < count then throw .hang else return some buffer
  | turns + 1, done, buffer => do
    if count ≤ done then
      return some buffer
    else
      let σ ← get
      let place := Raid.locate σ.machine volume (lba + done) (count - done)
      match volume.members place.1 with
      | none => return none
      | some member =>
        match ← transferRun env direction done member place.2.1 place.2.2 with
        | none => return none
        | some piece =>
          spread volume lba count direction turns (done + place.2.2)
            (Raid.splice buffer done place.2.2 piece)

def mirrorRead (index : Nat) (volume : Volume Controller) (lba count : Nat) :
    List Nat → M (Option Run)
  | [] => return none
  | slot :: rest => do
    if ← memberFailed index slot then
      mirrorRead index volume lba count rest
    else
      match volume.members slot with
      | none => mirrorRead index volume lba count rest
      | some member =>
        match ← memberRead env member lba count with
        | some run => return some run
        | none =>
          markFailed env index slot
          mirrorRead index volume lba count rest

def mirrorWrite (index : Nat) (volume : Volume Controller) (lba count : Nat) (data : Run) :
    List Nat → Bool → M Bool
  | [], wrote => return wrote
  | slot :: rest, wrote => do
    if ← memberFailed index slot then
      mirrorWrite index volume lba count data rest wrote
    else
      match volume.members slot with
      | none => mirrorWrite index volume lba count data rest wrote
      | some member =>
        if ← memberWrite env member lba count data then
          mirrorWrite index volume lba count data rest true
        else
          markFailed env index slot
          mirrorWrite index volume lba count data rest wrote

/-- `raid::read`. Every caller in the block layer has a buffer for all of `count` sectors. -/
def volumeRead (index lba count : Nat) : M (Option Run) := do
  let σ ← get
  match σ.machine.volume index with
  | none => return none
  | some volume =>
    if count = 0 ∨ lba + count > volume.sectors then
      return none
    else if volume.level = .mirror then
      mirrorRead env index volume lba count (List.range volume.count)
    else
      spread env volume lba count .read count 0 fun _ => Buffer.zero

def volumeWrite (index lba count : Nat) (data : Run) : M Bool := do
  let σ ← get
  match σ.machine.volume index with
  | none => return false
  | some volume =>
    if count = 0 ∨ lba + count > volume.sectors then
      return false
    else if volume.level = .mirror then
      mirrorWrite env index volume lba count data (List.range volume.count) false
    else
      return (← spread env volume lba count (.write data) count 0 fun _ => Buffer.zero).isSome

/-- What `read_run` and `write_run` reach: a volume's members are read and written through the
cache. -/
def devices : Device where
  read
    | .controller disk, lba, count => (drivers env).read (.controller disk) lba count
    | .volume index, lba, count => volumeRead env index lba count
  write
    | .controller disk, lba, count, data => (drivers env).write (.controller disk) lba count data
    | .volume index, lba, count, data => volumeWrite env index lba count data

end

inductive IoData where
  | read (buffer : Run) (available : Nat)
  | write (buffer : Run) (available : Nat)

structure Io where
  disk : Disk
  lba : Nat
  sectors : Nat
  data : IoData
  barrier : Bool
  ok : Bool

inductive Schedule where
  | fifo | elevator
  deriving DecidableEq, Repr

def IoData.buffer : IoData → Run
  | .read buffer _ => buffer
  | .write buffer _ => buffer

def IoData.available : IoData → Nat
  | .read _ available => available
  | .write _ available => available

def isWrite (io : Io) : Bool :=
  match io.data with
  | .read _ _ => false
  | .write _ _ => true

def conflicts (a b : Io) : Bool :=
  a.disk = b.disk && (isWrite a || isWrite b) && a.lba < b.lba + b.sectors && b.lba < a.lba + a.sectors

def valid (io : Io) : Bool :=
  0 < io.sectors && io.sectors ≤ maxRun && io.sectors ≤ io.data.available

def Io.fill (io : Io) (run : Run) : Io :=
  match io.data with
  | .read buffer available =>
    { io with data := .read (fun index => if index < io.sectors then run index else buffer index) available }
  | .write _ _ => io

def Io.finish (io : Io) (ok : Bool) : Io := { io with ok }

def serveSectors (disk : Disk) (lba : Nat) : List Nat → Run → Cache → Bool × Run × Cache
  | [], buffer, cache => (true, buffer, cache)
  | index :: rest, buffer, cache =>
    let sector := lba + index
    match cache.find disk (sector / maxRun) with
    | none => (false, buffer, cache)
    | some (set, way) =>
      let data := (cache.pages set way).data.getD fun _ => Buffer.zero
      serveSectors disk lba rest (update buffer index (data (sector % maxRun))) (cache.touch set way)

abbrev Group := Nat → Io

def serveCached (index : Nat) (group : Group) : M (Bool × Group) := do
  let io := group index
  if valid io then
    let σ ← get
    let served := serveSectors io.disk io.lba (List.range io.sectors) io.data.buffer σ.cache
    setCache fun _ => served.2.2
    return (served.1, update group index
      ((io.fill served.2.1).finish (served.1 || io.ok)))
  else
    return (false, group)

section
variable (env : Env) (device : Device)

def cacheFill (disk : Disk) (lba count : Nat) (data : Run) : M Unit := do
  if count = maxRun ∧ lba % maxRun = 0 then
    if ← pressureAllowsCaching env then
      let σ ← get
      let number := lba / maxRun
      if σ.pageSectors disk number = maxRun ∧ (σ.cache.find disk number).isNone then
        if ← newPage env then
          setCache fun cache => cache.insert disk number data

def runRead (io : Io) (throughCache : Bool) : M (Option Run) := do
  if throughCache then
    read env device io.disk io.lba io.sectors
  else
    match ← readRun device io.disk io.lba io.sectors with
    | none => return none
    | some run =>
      cacheFill env io.disk io.lba io.sectors run
      return some run

def runIo (io : Io) (throughCache : Bool) : M Io := do
  if valid io then
    match io.data with
    | .write buffer _ => return io.finish (← writeRun device io.disk io.lba io.sectors buffer)
    | .read _ _ =>
      match ← runRead env device io throughCache with
      | none => return io.finish false
      | some run => return (io.fill run).finish true
  else
    return io.finish false

def runSingle (index : Nat) (throughCache : Bool) (group : Group) : M Group := do
  return update group index (← runIo env device (group index) throughCache)

def runEach (throughCache : Bool) : List Nat → Group → M Group
  | [], group => return group
  | index :: rest, group => do
    runEach throughCache rest (← runSingle env device index throughCache group)

def stage (group : Group) : List Nat → Nat → Run → Run
  | [], _, staging => staging
  | index :: rest, offset, staging =>
    let io := group index
    stage group rest (offset + io.sectors)
      (Raid.splice staging offset io.sectors io.data.buffer)

def deliver (ok : Bool) (staging : Run) : List Nat → Nat → Group → Group
  | [], _, group => group
  | index :: rest, offset, group =>
    let io := group index
    let done := if ok then io.fill fun sector => staging (offset + sector) else io
    deliver ok staging rest (offset + io.sectors) (update group index (done.finish ok))

def runMerged (group : Group) (first : Nat) (more : List Nat) (length : Nat) : M Group := do
  let members := first :: more
  let disk := (group first).disk
  let lba := (group first).lba
  if members.any fun index => !valid (group index) then
    runEach env device false members group
  else if isWrite (group first) then
    let staging := stage group members 0 fun _ => Buffer.zero
    let ok ← writeRun device disk lba length staging
    return deliver ok staging members 0 group
  else
    match ← readRun device disk lba length with
    | none => return deliver false (fun _ => Buffer.zero) members 0 group
    | some staging =>
      cacheFill env disk lba length staging
      return deliver true staging members 0 group

/-- The requests after `current` that can be merged with it into one run, the run's length, and the
requests that are left. -/
def absorb (group : Group) (first : Nat) : Nat → Nat → List Nat → List Nat × Nat × List Nat
  | _, length, [] => ([], length, [])
  | current, length, next :: rest =>
    if (group next).disk = (group first).disk ∧ isWrite (group next) = isWrite (group first) ∧
        (group next).lba = (group current).lba + (group current).sectors ∧
        length + (group next).sectors ≤ maxRun then
      let more := absorb group first next (length + (group next).sectors) rest
      (next :: more.1, more.2)
    else ([], length, next :: rest)

def dispatch (ordered : Bool) : Nat → List Nat → Group → M Group
  | 0, _, group => return group
  | _ + 1, [], group => return group
  | turns + 1, first :: rest, group => do
    let length := (group first).sectors
    let run := if ordered ∧ length < maxRun then absorb group first first length rest
      else ([], length, rest)
    if run.1 = [] then
      dispatch ordered turns rest (← runSingle env device first (!ordered) group)
    else
      dispatch ordered turns run.2.2 (← runMerged env device group first run.1 run.2.1)

def leaveServed (ordered : Bool) : List Nat → Group → M (List Nat × Group)
  | [], group => return ([], group)
  | index :: rest, group => do
    if ordered && !isWrite (group index) then
      let served ← serveCached index group
      let pending ← leaveServed ordered rest served.2
      return (if served.1 then pending.1 else index :: pending.1, pending.2)
    else
      let pending ← leaveServed ordered rest group
      return (index :: pending.1, pending.2)

def sweep (heads : Nat → Nat) (group : Group) : Nat → List Nat → List Nat
  | 0, order => order
  | _ + 1, [] => []
  | turns + 1, first :: rest =>
    let disk := (group first).disk
    let run := first :: rest.takeWhile fun index => (group index).disk = disk
    let after := rest.dropWhile fun index => (group index).disk = disk
    let split := (run.findIdx? fun index => heads disk.index ≤ (group index).lba).getD 0
    run.rotate split ++ sweep heads group turns after

def hazard (group : Group) (count : Nat) : Bool :=
  (List.range count).any fun a => (List.range count).any fun b =>
    a < b && conflicts (group a) (group b)

def runGroup (ios : List Io) (default : Io) (schedule : Schedule) : M (List Io) := do
  let group : Group := fun index => ios.getD index default
  let count := ios.length
  let ordered := decide (schedule = .elevator) && !hazard group count
  let pending ← leaveServed ordered (List.range count) group
  let group := pending.2
  let σ ← get
  let order := if ordered then
      sweep σ.heads group pending.1.length
        (env.sorted (fun index => ((group index).disk.index, (group index).lba)) pending.1)
    else pending.1
  let group ← dispatch env device ordered order.length order group
  return (List.range count).map group

def submitFrom (schedule : Schedule) : Nat → List Io → M (List Io)
  | 0, _ => return []
  | _ + 1, [] => return []
  | turns + 1, io :: rest => do
    let group := io :: rest.takeWhile fun io => !io.barrier
    let done ← runGroup env device group io schedule
    let after ← submitFrom schedule turns (rest.dropWhile fun io => !io.barrier)
    return done ++ after

/-- Runs a batch of requests, at most `batchMax` of them; returns how many succeeded and the requests
as they are then. -/
def submit (batch : List Io) (schedule : Schedule) : M (Nat × List Io) := do
  let total := min batch.length batchMax
  let done ← submitFrom env device schedule total (batch.take total)
  return ((done.filter Io.ok).length, done ++ batch.drop total)

def piecesFrom : Nat → Nat → Nat → List (Nat × Nat)
  | 0, _, _ => []
  | turns + 1, lba, left =>
    let take := min left (maxRun - lba % maxRun)
    (lba, take) :: if take = left then [] else piecesFrom turns (lba + take) (left - take)

def pieces (extents : List (Nat × Nat)) : List (Nat × Nat) :=
  extents.flatMap fun extent => piecesFrom (extent.2 + 1) extent.1 extent.2

def gather : List Io → Nat → Run → Run
  | [], _, out => out
  | io :: rest, offset, out =>
    gather rest (offset + io.sectors) (Raid.splice out offset io.sectors io.data.buffer)

def scatterFrom (disk : Disk) : Nat → List (Nat × Nat) → Nat → Nat → Run → M (Option Run)
  | 0, _, _, _, out => return some out
  | turns + 1, pieces, offset, available, out =>
    if pieces = [] then
      return some out
    else do
      let queued := pieces.take batchMax
      let sectors := (queued.map Prod.snd).sum
      if available < sectors then
        return none
      else
        let batch := queued.map fun piece : Nat × Nat =>
          { disk, lba := piece.1, sectors := piece.2
            data := .read (fun _ => Buffer.zero) piece.2
            barrier := false, ok := false : Io }
        let done ← submit env device batch .elevator
        if done.1 ≠ queued.length then
          return none
        else
          scatterFrom disk turns (pieces.drop batchMax) (offset + sectors) (available - sectors)
            (gather done.2 offset out)

def readScatter (disk : Disk) (extents : List (Nat × Nat)) (available : Nat) : M (Option Run) :=
  let all := pieces extents
  scatterFrom env device disk all.length all 0 available fun _ => Buffer.zero

end

inductive Call where
  | read (disk : Disk) (lba count : Nat)
  | write (disk : Disk) (lba count : Nat) (data : Run)
  | submit (batch : List Io) (schedule : Schedule)
  | readScatter (disk : Disk) (extents : List (Nat × Nat)) (available : Nat)
  | reclaim (target : Nat)
  | invalidateDisk (disk : Disk)

inductive Reply where
  | sectors (run : Option Run)
  | wrote (ok : Bool)
  | finished (succeeded : Nat) (batch : List Io)
  | released (pages : Nat)
  | nothing

def reclaim (target : Nat) : M Nat := do
  let σ ← get
  let result := σ.cache.reclaim target
  setCache fun _ => result.2
  return result.1

def Call.action (env : Env) : Call → M Reply
  | .read disk lba count => do
    return .sectors (← Block.read env (devices env) disk lba count)
  | .write disk lba count data => do
    return .wrote (← Block.write (devices env) disk lba count data)
  | .submit batch schedule => do
    let result ← Block.submit env (devices env) batch schedule
    return .finished result.1 result.2
  | .readScatter disk extents available => do
    return .sectors (← Block.readScatter env (devices env) disk extents available)
  | .reclaim target => do
    return .released (← Block.reclaim target)
  | .invalidateDisk disk => do
    setCache fun cache => cache.invalidateDisk disk
    return .nothing

/-- The state after a call; none when the call has stopped the kernel. -/
def step (env : Env) (σ : Option State) (call : Call) : Option State :=
  match σ with
  | none => none
  | some σ =>
    match call.action env σ with
    | (.ok _, σ') => some σ'
    | (.error _, _) => none

end AerOS.Block
