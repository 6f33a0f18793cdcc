import AerOS.Lib.Action
import AerOS.Lib.Bytes

/-!
# The FAT filesystem (`kernel/src/fatfs.rs`): the volume, its directories and reading

A mounted volume is its geometry and a state: the disk, how it answers the transfers to come, and the two
hints kept between calls. The sector cache is written through, so a hit is a transfer that succeeds.
Numbers are natural numbers, checked where the code's overflow checks are. A loop that the code does
not bound runs on `fuel` and hangs without it.
-/

namespace AerOS.Fat
open Lib Lib.Action

def nameMax : Nat := 255

def attrVolume : UInt8 := 0x08
def attrDirectory : UInt8 := 0x10
def attrArchive : UInt8 := 0x20
def attrLfn : UInt8 := 0x0f

def maxDirectorySectors : Nat := 4096

inductive FsError where
  | io | notFound | exists | notDirectory | isDirectory | notEmpty | noSpace | readOnly | invalidName
  | corrupt | unsupported | tooLarge
  deriving DecidableEq, Repr

/-- How a call ends early: with an error for its caller, in a failed check, or never. -/
inductive Stop where
  | failed (error : FsError)
  | panic
  | hang
  deriving DecidableEq, Repr

inductive FatType where
  | fat16 | fat32
  deriving DecidableEq, Repr

abbrev Sector := Buffer 512

abbrev Entry := Buffer 32

structure Geometry where
  start : Nat
  fatType : FatType
  sectorsPerCluster : Nat
  reserved : Nat
  fatCount : Nat
  fatSectors : Nat
  label : List UInt8
  rootCluster : Nat
  rootStart : Nat
  rootSectors : Nat
  dataStart : Nat
  clusters : Nat
  deriving DecidableEq, Repr

structure Volume where
  disk : Nat → Sector
  /-- Whether the disk makes the `n`-th transfer from now. -/
  answers : Nat → Bool
  turn : Nat := 0
  freeHint : Nat := 2
  dirCursor : Option (Nat × Nat × Nat) := none

abbrev Call (α : Type) := Action Volume Stop α

structure Node where
  dir : Nat := 0
  index : Nat := 0
  firstIndex : Nat := 0
  firstCluster : Nat := 0
  size : Nat := 0
  attributes : UInt8 := 0
  date : Nat := 0
  time : Nat := 0
  cursorIndex : Nat := 0
  cursorCluster : Nat := 0
  deriving DecidableEq, Repr

namespace Node

def isDirectory (node : Node) : Bool := node.attributes &&& attrDirectory != 0

def asDir (node : Node) : Nat := node.firstCluster

end Node

structure Listed where
  node : Node
  name : List UInt8
  deriving DecidableEq, Repr

def fail {α : Type} (error : FsError) : Call α := throw (.failed error)

def u32 (n : Nat) : Call Nat := if n < 2 ^ 32 then pure n else throw .panic

def u64 (n : Nat) : Call Nat := if n < 2 ^ 64 then pure n else throw .panic

def less (a b : Nat) : Call Nat := if b ≤ a then pure (a - b) else throw .panic

def within (i n : Nat) : Call Unit := if i < n then pure () else throw .panic

def le16 {n : Nat} (bytes : Buffer n) (offset : Nat) : Nat := ofLe (bytes.slice offset 2)

def le32 {n : Nat} (bytes : Buffer n) (offset : Nat) : Nat := ofLe (bytes.slice offset 4)

def put16 {n : Nat} (bytes : Buffer n) (offset value : Nat) : Buffer n := bytes.put offset (leBytes 2 value)

def put32 {n : Nat} (bytes : Buffer n) (offset value : Nat) : Buffer n := bytes.put offset (leBytes 4 value)

def checksum (short : List UInt8) : UInt8 :=
  short.foldl (fun sum byte => (sum >>> 1 ||| sum <<< 7) + byte) 0

def fold (byte : UInt8) : UInt8 := if 0x61 ≤ byte ∧ byte ≤ 0x7a then byte - 0x20 else byte

def lower (byte : UInt8) : UInt8 := if 0x41 ≤ byte ∧ byte ≤ 0x5a then byte + 0x20 else byte

def namesEqual (a b : List UInt8) : Bool := a.length == b.length && a.map fold == b.map fold

def encodeUtf8 (unit : Nat) : List UInt8 :=
  if unit < 0x80 then [UInt8.ofNat unit]
  else if unit < 0x800 then [UInt8.ofNat (0xc0 + unit / 64), UInt8.ofNat (0x80 + unit % 64)]
  else if 0xd800 ≤ unit ∧ unit < 0xe000 then [0x3f]
  else [UInt8.ofNat (0xe0 + unit / 4096), UInt8.ofNat (0x80 + unit / 64 % 64), UInt8.ofNat (0x80 + unit % 64)]

def fromUcs2 : List Nat → List UInt8 → List UInt8
  | [], out => out
  | unit :: units, out =>
    let encoded := encodeUtf8 unit
    if nameMax < out.length + encoded.length then out else fromUcs2 units (out ++ encoded)

/-! ### The disk -/

def answer : Call Bool := do
  let v ← get
  modify fun v => { v with turn := v.turn + 1 }
  pure (v.answers v.turn)

def absolute (g : Geometry) (relative : Nat) : Call Nat := u64 (g.start + relative)

def readSector (g : Geometry) (relative : Nat) : Call Sector := do
  let lba ← absolute g relative
  let done ← answer
  let v ← get
  if done then pure (v.disk lba) else fail .io

def writeSector (g : Geometry) (relative : Nat) (data : Sector) : Call Unit := do
  let lba ← absolute g relative
  let done ← answer
  if done then modify fun v => { v with disk := Function.update v.disk lba data } else fail .io

def flushExtents (extents : List (Nat × Nat)) : Call (List UInt8) := do
  let done ← answer
  let v ← get
  if done then
    pure (extents.flatMap fun extent =>
      (List.range extent.2).flatMap fun i => (v.disk (extent.1 + i)).toList)
  else fail .io

/-! ### The FAT -/

namespace Geometry
variable (g : Geometry)

def perEntry : Nat :=
  match g.fatType with
  | .fat16 => 2
  | .fat32 => 4

def isEnd (value : Nat) : Bool :=
  match g.fatType with
  | .fat16 => 0xfff8 ≤ value
  | .fat32 => 0x0ffffff8 ≤ value

def endMarker : Nat :=
  match g.fatType with
  | .fat16 => 0xffff
  | .fat32 => 0x0fffffff

def fatValue (sector : Sector) (offset : Nat) : Nat :=
  match g.fatType with
  | .fat16 => le16 sector offset
  | .fat32 => le32 sector offset % 2 ^ 28

def putValue (sector : Sector) (offset value : Nat) : Sector :=
  match g.fatType with
  | .fat16 => put16 sector offset value
  | .fat32 => put32 sector offset (le32 sector offset / 2 ^ 28 * 2 ^ 28 + value % 2 ^ 28)

end Geometry

def clusterLba (g : Geometry) (cluster : Nat) : Call Nat := do
  let past ← less cluster 2
  let offset ← u32 (past * g.sectorsPerCluster)
  u32 (g.dataStart + offset)

def clusterBytes (g : Geometry) : Call Nat := u32 (g.sectorsPerCluster * 512)

def limit (g : Geometry) : Call Nat := u32 (g.clusters + 2)

def readValue (g : Geometry) (cluster : Nat) : Call Nat := do
  let offset ← u32 (cluster * g.perEntry)
  let relative ← u32 (g.reserved + offset / 512)
  let sector ← readSector g relative
  within (offset % 512 + (g.perEntry - 1)) 512
  pure (g.fatValue sector (offset % 512))

def fatGet (g : Geometry) (cluster : Nat) : Call Nat :=
  if cluster < 2 then fail .corrupt
  else do
    let past ← limit g
    if past ≤ cluster then fail .corrupt else readValue g cluster

def setCopy (g : Geometry) (offset value copy : Nat) : Call Unit := do
  let before ← u32 (copy * g.fatSectors)
  let base ← u32 (g.reserved + before)
  let relative ← u32 (base + offset / 512)
  let sector ← readSector g relative
  within (offset % 512 + (g.perEntry - 1)) 512
  writeSector g relative (g.putValue sector (offset % 512) value)

def fatSet (g : Geometry) (cluster value : Nat) : Call Unit := do
  modify fun v => { v with dirCursor := none }
  let offset ← u32 (cluster * g.perEntry)
  forEach (List.range g.fatCount) (setCopy g offset value)

def nextCluster (g : Geometry) (cluster : Nat) : Call (Option Nat) := do
  let value ← fatGet g cluster
  if g.isEnd value ∨ value < 2 then pure none
  else
    let past ← limit g
    if past ≤ value then fail .corrupt else pure (some value)

/-! ### Directories -/

def walk (g : Geometry) : Nat → Nat → Call (Option Nat)
  | 0, cluster => pure (some cluster)
  | hops + 1, cluster => do
    match ← nextCluster g cluster with
    | some next => walk g hops next
    | none => pure none

def resume (cursor : Option (Nat × Nat × Nat)) (dir hops : Nat) : Nat × Nat :=
  match cursor with
  | some (cachedDir, cachedHops, cachedCluster) =>
    if cachedDir = dir ∧ cachedHops ≤ hops then (cachedCluster, cachedHops) else (dir, 0)
  | none => (dir, 0)

def chainSector (g : Geometry) (dir sectorIndex : Nat) : Call (Option Nat) := do
  let hops := sectorIndex / g.sectorsPerCluster
  let v ← get
  let (cluster, walked) := resume v.dirCursor dir hops
  match ← walk g (hops - walked) cluster with
  | none => pure none
  | some cluster => do
    modify fun v => { v with dirCursor := some (dir, hops, cluster) }
    let lba ← clusterLba g cluster
    let sector ← u32 (lba + sectorIndex % g.sectorsPerCluster)
    pure (some sector)

def dirSector (g : Geometry) (dir sectorIndex : Nat) : Call (Option Nat) :=
  if dir = 0 then do
    -- the sum is computed before the comparison decides whether it is used
    let sector ← u32 (g.rootStart + sectorIndex)
    pure (if sectorIndex < g.rootSectors then some sector else none)
  else if maxDirectorySectors ≤ sectorIndex then pure none
  else chainSector g dir sectorIndex

def entryOf (data : Sector) (slot : Nat) : Entry := Buffer.ofFn fun i => data.byte (slot * 32 + i)

def readEntry (g : Geometry) (dir index : Nat) : Call (Option Entry) := do
  match ← dirSector g dir (index / 16) with
  | none => pure none
  | some sector => do
    let data ← readSector g sector
    within (index % 16 * 32 + 31) 512
    pure (some (entryOf data (index % 16)))

def writeEntry (g : Geometry) (dir index : Nat) (entry : Entry) : Call Unit := do
  match ← dirSector g dir (index / 16) with
  | none => fail .noSpace
  | some sector => do
    let data ← readSector g sector
    within (index % 16 * 32 + 31) 512
    writeSector g sector (data.put (index % 16 * 32) entry.toList)

def nodeFromEntry (g : Geometry) (dir index firstIndex : Nat) (entry : Entry) : Node where
  dir := dir
  index := index
  firstIndex := firstIndex
  firstCluster := (match g.fatType with
    | .fat16 => 0
    | .fat32 => le16 entry 20) * 65536 + le16 entry 26
  size := le32 entry 28
  attributes := entry.byte 11
  date := le16 entry 24
  time := le16 entry 22

structure LongName where
  units : Nat → Nat := fun _ => 0
  expected : Nat := 0
  check : UInt8 := 0
  first : Nat := 0
  seen : Nat := 0

def unitOffsets : List Nat := [1, 3, 5, 7, 9, 14, 16, 18, 20, 22, 24, 28, 30]

inductive Step where
  | finish
  | skip (long : LongName)
  | show (listed : Listed)
  | panic

def gather (long : LongName) (entry : Entry) (sequence : Nat) : Step :=
  let base := (sequence - 1) * 13
  if 260 < base + unitOffsets.length then .panic
  else .skip { long with
    units := fun i => if base ≤ i ∧ i < base + unitOffsets.length
      then le16 entry (unitOffsets.getD (i - base) 0) else long.units i
    seen := long.seen ||| 2 ^ sequence }

def longEntry (long : LongName) (index : Nat) (entry : Entry) : Step :=
  let order := (entry.byte 0).toNat
  let sequence := order % 32
  let long := if order / 64 % 2 = 1
    then { units := fun _ => 0xffff, expected := sequence, check := entry.byte 13, first := index, seen := 0 }
    else long
  if sequence = 0 ∨ 20 < sequence ∨ long.expected = 0 ∨ entry.byte 13 ≠ long.check
  then .skip { long with expected := 0 }
  else gather long entry sequence

def trimmed (bytes : List UInt8) : List UInt8 := (bytes.reverse.dropWhile (· == 0x20)).reverse

def shortName (entry : Entry) : List UInt8 :=
  let flags := entry.byte 12
  let base := trimmed (entry.slice 0 8)
  let extension := trimmed (entry.slice 8 3)
  let name := (if flags &&& 0x08 != 0 then base.map lower else base)
    ++ if extension = [] then []
      else 0x2e :: if flags &&& 0x10 != 0 then extension.map lower else extension
  -- 0x05 stands in for a leading 0xe5 byte
  if entry.byte 0 = 0x05 ∧ 0 < name.length then name.set 0 0xe5 else name

def shortEntry (g : Geometry) (dir index : Nat) (long : LongName) (entry : Entry) : Step :=
  if 31 ≤ long.expected then .panic
  else if long.expected ≠ 0 ∧ long.seen = 2 ^ (long.expected + 1) - 2
      ∧ checksum (entry.slice 0 11) = long.check then
    let units := ((List.range 260).map long.units).takeWhile fun unit => unit != 0 && unit != 0xffff
    .show ⟨nodeFromEntry g dir index long.first entry, fromUcs2 units []⟩
  else .show ⟨nodeFromEntry g dir index index entry, shortName entry⟩

def isDots (entry : Entry) : Bool :=
  entry.byte 0 == 0x2e && (entry.byte 1 == 0x20 || (entry.byte 1 == 0x2e && entry.byte 2 == 0x20))

def isLong (entry : Entry) : Bool := entry.byte 11 &&& 0x3f == attrLfn

def examine (g : Geometry) (dir index : Nat) (long : LongName) (entry : Entry) : Step :=
  if entry.byte 0 = 0 then .finish
  else if entry.byte 0 = 0xe5 then .skip { long with expected := 0 }
  else if isLong entry then longEntry long index entry
  else if entry.byte 11 &&& attrVolume ≠ 0 ∨ isDots entry then .skip { long with expected := 0 }
  else shortEntry g dir index long entry

def listFrom (g : Geometry) (dir : Nat) : Nat → LongName → Nat → Call (Option Listed × Nat)
  | 0, _, _ => throw .hang
  | fuel + 1, long, index => do
    match ← readEntry g dir index with
    | none => pure (none, index)
    | some entry => do
      let past ← u32 (index + 1)
      match examine g dir index long entry with
      | .finish => pure (none, index)
      | .skip long => listFrom g dir fuel long past
      | .show listed => pure (some listed, past)
      | .panic => throw .panic

def listNext (g : Geometry) (fuel dir cursor : Nat) : Call (Option Listed × Nat) :=
  listFrom g dir fuel {} cursor

def findFrom (g : Geometry) (fuel dir : Nat) (name : List UInt8) : Nat → Nat → Call Node
  | 0, _ => throw .hang
  | rounds + 1, cursor => do
    match ← listNext g fuel dir cursor with
    | (none, _) => fail .notFound
    | (some listed, cursor) =>
      if namesEqual listed.name name then pure listed.node
      else findFrom g fuel dir name rounds cursor

def find (g : Geometry) (fuel dir : Nat) (name : List UInt8) : Call Node :=
  findFrom g fuel dir name fuel 0

def root (g : Geometry) : Node where
  firstCluster := match g.fatType with
    | .fat16 => 0
    | .fat32 => g.rootCluster
  attributes := attrDirectory

def resolveFrom (g : Geometry) (fuel : Nat) : List (List UInt8) → Node → Call Node
  | [], node => pure node
  | component :: rest, node =>
    if component = [] ∨ component = [0x2e] then resolveFrom g fuel rest node
    else if !node.isDirectory then fail .notDirectory
    else do
      let node ← find g fuel node.asDir component
      resolveFrom g fuel rest node

def resolve (g : Geometry) (fuel : Nat) (path : List UInt8) : Call Node :=
  resolveFrom g fuel (path.splitOn 0x2f) (root g)

/-! ### Allocation and files -/

def allocFrom (g : Geometry) : Nat → Nat → Call Nat
  | 0, _ => fail .noSpace
  | tries + 1, candidate => do
    let past ← limit g
    let candidate := if past ≤ candidate then 2 else candidate
    let value ← fatGet g candidate
    if value = 0 then do
      fatSet g candidate g.endMarker
      let hint ← u32 (candidate + 1)
      modify fun v => { v with freeHint := hint }
      pure candidate
    else do
      let candidate ← u32 (candidate + 1)
      allocFrom g tries candidate

def allocCluster (g : Geometry) : Call Nat := do
  let v ← get
  allocFrom g g.clusters (max v.freeHint 2)

def setFields (node : Node) (entry : Entry) : Entry :=
  let entry := put16 entry 20 (node.firstCluster / 65536)
  let entry := put16 entry 26 (node.firstCluster % 65536)
  let entry := put32 entry 28 node.size
  let entry := put16 entry 22 node.time
  let entry := put16 entry 24 node.date
  let entry := put16 entry 18 node.date
  entry.put 11 [node.attributes]

def updateEntry (g : Geometry) (node : Node) : Call Unit := do
  match ← readEntry g node.dir node.index with
  | none => fail .corrupt
  | some entry => writeEntry g node.dir node.index (setFields node entry)

def deleteFrom (g : Geometry) (dir : Nat) : Nat → Nat → Call Unit
  | 0, _ => pure ()
  | count + 1, index => do
    match ← readEntry g dir index with
    | none => fail .corrupt
    | some entry => do
      writeEntry g dir index (entry.put 0 [0xe5])
      deleteFrom g dir count (index + 1)

def deleteEntries (g : Geometry) (node : Node) : Call Unit :=
  deleteFrom g node.dir (node.index + 1 - node.firstIndex) node.firstIndex

def follow (g : Geometry) (allocate : Bool) : Nat → Nat → Call (Option Nat)
  | 0, cluster => pure (some cluster)
  | steps + 1, cluster => do
    match ← nextCluster g cluster with
    | some next => follow g allocate steps next
    | none =>
      if allocate then do
        let new ← allocCluster g
        fatSet g cluster new
        follow g allocate steps new
      else pure none

def advance (g : Geometry) (node : Node) (index cluster target : Nat) (allocate : Bool) :
    Call (Option Nat × Node) := do
  match ← follow g allocate (target - index) cluster with
  | none => pure (none, node)
  | some cluster => pure (some cluster, { node with cursorIndex := max index target, cursorCluster := cluster })

def clusterAt (g : Geometry) (node : Node) (target : Nat) (allocate : Bool) : Call (Option Nat × Node) :=
  if node.cursorCluster ≠ 0 ∧ node.cursorIndex ≤ target then
    advance g node node.cursorIndex node.cursorCluster target allocate
  else if node.firstCluster ≠ 0 then advance g node 0 node.firstCluster target allocate
  else if allocate then do
    let first ← allocCluster g
    let node := { node with firstCluster := first }
    updateEntry g node
    advance g node 0 first target allocate
  else pure (none, node)

structure Progress where
  out : List UInt8 := []
  queue : List (Nat × Nat) := []
  queued : Nat := 0

def Progress.done (p : Progress) : Nat := p.out.length + p.queued

def flush (p : Progress) : Call Progress :=
  if p.queue = [] then pure p
  else do
    let bytes ← flushExtents p.queue
    pure { out := p.out ++ bytes.take p.queued }

def enqueue (g : Geometry) (p : Progress) (base span : Nat) : Call Progress := do
  within p.queue.length 16
  let lba ← absolute g base
  let p := { p with queue := p.queue ++ [(lba, span / 512)], queued := p.queued + span / 512 * 512 }
  if p.queue.length = 16 then flush p else pure p

def readPart (g : Geometry) (p : Progress) (base firstOffset span : Nat) : Call Progress := do
  let p ← flush p
  let sector ← readSector g base
  pure { p with out := p.out ++ sector.slice firstOffset (min (512 - firstOffset) span) }

def readPiece (g : Geometry) (p : Progress) (cluster offsetIn want bytes : Nat) : Call Progress := do
  let span := min (bytes - offsetIn) (want - p.done)
  let lba ← clusterLba g cluster
  let base ← u32 (lba + offsetIn / 512)
  if offsetIn % 512 = 0 ∧ 512 ≤ span then enqueue g p base span
  else readPart g p base (offsetIn % 512) span

def readLoop (g : Geometry) (offset want bytes : Nat) : Nat → Node → Progress → Call (List UInt8 × Node)
  | 0, _, _ => throw .hang
  | fuel + 1, node, p =>
    if want ≤ p.done then do
      let p ← flush p
      pure (p.out, node)
    else do
      let position ← u64 (offset + p.done)
      match ← clusterAt g node (position / bytes % 2 ^ 32) false with
      | (none, _) => fail .corrupt
      | (some cluster, node) => do
        let p ← readPiece g p cluster (position % bytes) want bytes
        readLoop g offset want bytes fuel node p

def readAt (g : Geometry) (fuel : Nat) (node : Node) (offset room : Nat) : Call (List UInt8 × Node) :=
  if node.isDirectory then fail .isDirectory
  else if node.size ≤ offset then pure ([], node)
  else do
    let bytes ← clusterBytes g
    readLoop g offset (min room (node.size - offset)) bytes fuel node {}

/-! ### The volume -/

structure FsInfo where
  bytesPerCluster : Nat
  clusters : Nat
  freeClusters : Nat
  fat32 : Bool
  deriving DecidableEq, Repr

def countFree (g : Geometry) : List Nat → Nat → Call Nat
  | [], free => pure free
  | cluster :: rest, free => do
    let value ← fatGet g cluster
    if value = 0 then do
      let free ← u32 (free + 1)
      countFree g rest free
    else countFree g rest free

def info (g : Geometry) : Call FsInfo := do
  let past ← limit g
  let free ← countFree g (List.range' 2 (past - 2)) 0
  let bytes ← clusterBytes g
  pure ⟨bytes, g.clusters, free, g.fatType == .fat32⟩

def isPowerOfTwo (n : Nat) : Bool := n != 0 && n &&& (n - 1) == 0

def geometryOf (boot : Sector) (start : Nat) (fatSectors rootSectors rootStart dataStart clusters : Nat)
    (fatType : FatType) : Geometry where
  start := start
  fatType := fatType
  sectorsPerCluster := (boot.byte 13).toNat
  reserved := le16 boot 14
  fatCount := (boot.byte 16).toNat
  fatSectors := fatSectors
  label := boot.slice (if fatType = .fat32 then 71 else 43) 11
  rootCluster := if fatType = .fat32 then le32 boot 44 else 0
  rootStart := rootStart
  rootSectors := rootSectors
  dataStart := dataStart
  clusters := clusters

def fatSectorsOf (boot : Sector) : Nat := if le16 boot 22 ≠ 0 then le16 boot 22 else le32 boot 36

def totalSectorsOf (boot : Sector) : Nat := if le16 boot 19 ≠ 0 then le16 boot 19 else le32 boot 32

def rootSectorsOf (boot : Sector) : Nat := (le16 boot 17 * 32 + 511) / 512

def supported (boot : Sector) : Bool :=
  boot.byte 510 == 0x55 && boot.byte 511 == 0xaa && le16 boot 11 == 512
    && isPowerOfTwo (boot.byte 13).toNat && le16 boot 14 != 0 && boot.byte 16 != 0 && boot.byte 16 ≤ 4

def occupy (g : Geometry) (slotFree : Bool) : Call Geometry :=
  if !slotFree then throw .panic
  else if g.fatType = .fat32 ∧ g.rootCluster < 2 then fail .corrupt
  else pure g

def layOut (boot : Sector) (start rootStart dataStart : Nat) (slotFree : Bool) : Call Geometry :=
  if fatSectorsOf boot = 0 ∨ totalSectorsOf boot ≤ dataStart then fail .unsupported
  else
    let clusters := (totalSectorsOf boot - dataStart) / (boot.byte 13).toNat
    if clusters < 4085 then fail .unsupported
    else occupy (geometryOf boot start (fatSectorsOf boot) (rootSectorsOf boot) rootStart dataStart clusters
      (if clusters < 65525 then .fat16 else .fat32)) slotFree

def mount (start : Nat) (slotFree : Bool) : Call Geometry := do
  let done ← answer
  let v ← get
  let boot := v.disk start
  if !done then fail .io
  else if !supported boot then fail .unsupported
  else do
    let fats ← u32 ((boot.byte 16).toNat * fatSectorsOf boot)
    let rootStart ← u32 (le16 boot 14 + fats)
    let dataStart ← u32 (rootStart + rootSectorsOf boot)
    layOut boot start rootStart dataStart slotFree

def isBootSector (sector : Sector) : Bool :=
  sector.byte 510 == 0x55 && sector.byte 511 == 0xaa && le16 sector 11 == 512
    && isPowerOfTwo (sector.byte 13).toNat && 1 ≤ sector.byte 16 && sector.byte 16 ≤ 4

def fatKinds : List UInt8 := [0x04, 0x06, 0x0b, 0x0c, 0x0e, 0x14, 0x16, 0x1b, 0x1c, 0x1e]

def volumeStart (sector : Sector) : Option Nat :=
  if isBootSector sector then some 0
  else if sector.byte 510 ≠ 0x55 ∨ sector.byte 511 ≠ 0xaa then none
  else (List.range 4).findSome? fun entry =>
    let start := 446 + entry * 16
    let first := le32 sector (start + 8)
    if fatKinds.contains (sector.byte (start + 4)) ∧ 0 < first then some first else none

end AerOS.Fat
