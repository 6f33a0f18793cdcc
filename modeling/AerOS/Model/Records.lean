import AerOS.Lib.Action
import AerOS.Lib.Slots
import Mathlib

/-!
# `fcntl` record locks (`kernel/src/syscall/records.rs`)

What the file system answers for a descriptor and whether user memory can be reached are inputs.
-/

namespace AerOS.Records
open Lib Lib.Action

def recordCount : Nat := 64

def openFile : Nat := 2 ^ 40

def eof : Nat := 2 ^ 64 - 1

structure Record where
  used : Bool
  file : Nat
  owner : Nat
  pid : Nat
  start : Nat
  stop : Nat
  write : Bool
  deriving DecidableEq, Repr

def Record.empty : Record := ⟨false, 0, 0, 0, 0, 0, false⟩

abbrev Table := Vector Record recordCount

def Table.empty : Table := Vector.replicate recordCount Record.empty

def Record.holdsFor (record : Record) (file owner : Nat) : Bool :=
  record.used && record.file == file && record.owner == owner

def Record.meets (record : Record) (start stop : Nat) : Bool :=
  !(decide (record.stop ≤ start) || decide (record.start ≥ stop))

def Record.outside (record : Record) (start stop : Nat) : List Record :=
  (if record.start < start then [{ record with start := record.start, stop := start }] else []) ++
    (if record.stop > stop then [{ record with start := stop, stop := record.stop }] else [])

def place (record : Record) : Action Table Nat Unit := do
  let records ← get
  match Slots.freeSlot Record.used records with
  | none => throw 37
  | some slot => modify fun records => records.set slot record

def carveAt (file owner start stop : Nat) (index : Fin recordCount) : Action Table Nat Unit := do
  let records ← get
  let record := records[index]
  if !record.holdsFor file owner then
    return ()
  if !record.meets start stop then
    return ()
  modify fun records => records.set index Record.empty
  forEach (record.outside start stop) place

def carve (file owner start stop : Nat) : Action Table Nat Unit :=
  forEach (List.finRange recordCount) (carveAt file owner start stop)

def Record.conflicts (record : Record) (file owner start stop : Nat) (write : Bool) : Bool :=
  record.used && record.file == file && record.owner != owner && decide (record.start < stop) &&
    decide (start < record.stop) && (write || record.write)

def conflict (records : Table) (file owner start stop : Nat) (write : Bool) : Option Record :=
  records.toList.find? fun record => record.conflicts file owner start stop write

def releaseProcess (pid : Nat) (file : Option Nat) (records : Table) : Table :=
  records.map fun record =>
    if record.used && record.owner == pid && file.all (record.file == ·) then Record.empty
    else record

def releaseOpenFile (handle : Nat) (records : Table) : Table :=
  releaseProcess (openFile ||| handle) none records

/-- What the file system answers for a descriptor: `file` is the inode of a descriptor that names
a file, `position` and `size` carry the error code of a failed query. -/
structure ProcessFd where
  handle : Nat
  file : Option Nat
  position : Except Nat Nat
  size : Except Nat Nat

structure Flock where
  kind : Int
  whence : Int
  offset : Int
  length : Int
  pid : Int
  deriving DecidableEq, Repr

def i64Max : Int := 2 ^ 63 - 1

def saturatingAdd (a b : Int) : Int := max (-2 ^ 63) (min i64Max (a + b))

def asI64 (n : Nat) : Int := if n % 2 ^ 64 < 2 ^ 63 then n % 2 ^ 64 else n % 2 ^ 64 - 2 ^ 64

def base (fd : ProcessFd) (whence : Int) : Except Nat Int :=
  if whence = 0 then .ok 0
  else if whence = 1 then fd.position.map asI64
  else if whence = 2 then fd.size.map asI64
  else .error 22

def lockRange (first length : Int) : Except Nat (Nat × Nat) :=
  let range : Int × Int :=
    if length = 0 then (first, i64Max)
    else if length > 0 then (first, saturatingAdd first length)
    else (saturatingAdd first length, first)
  if range.1 < 0 then .error 22
  else .ok (range.1.toNat, if range.2 = i64Max then eof else range.2.toNat)

inductive LockKind where
  | read | write | unlock
  deriving DecidableEq, Repr

def lockKind (kind : Int) : Option LockKind :=
  if kind = 0 then some .read
  else if kind = 1 then some .write
  else if kind = 2 then some .unlock
  else none

structure Span where
  file : Nat
  owner : Nat
  start : Nat
  stop : Nat
  deriving DecidableEq, Repr

def spanOf (fd : ProcessFd) (pid number : Nat) (flock : Flock) : Except Nat Span := do
  let file ← match fd.file with
    | some file => .ok file
    | none => .error 9
  let base ← base fd flock.whence
  let first := saturatingAdd base flock.offset
  let (start, stop) ← lockRange first flock.length
  return ⟨file, if number ≥ 36 then openFile ||| fd.handle else pid, start, stop⟩

def report (flock : Flock) : Option Record → Flock
  | some record =>
    { kind := if record.write then 1 else 0
      whence := 0
      offset := asI64 record.start
      length := if record.stop = eof then 0 else asI64 (record.stop - record.start)
      pid := if record.owner &&& openFile ≠ 0 then -1 else record.pid }
  | none => { flock with kind := 2 }

/-- The answer to a call; `waiting` is one turn of the loop of a blocking request that yields. -/
inductive Reply where
  | zero
  | errno (code : Nat)
  | waiting
  deriving DecidableEq, Repr

def grant (span : Span) (pid : Nat) (kind : LockKind) : Action Table Nat Unit := do
  carve span.file span.owner span.start span.stop
  if kind = .unlock then
    return ()
  place ⟨true, span.file, span.owner, pid % 2 ^ 32, span.start, span.stop, kind = .write⟩

def setLock (wait interrupted : Bool) (pid : Nat) (span : Span) (kind : LockKind)
    (records : Table) : Reply × Table :=
  if kind ≠ .unlock ∧
      (conflict records span.file span.owner span.start span.stop (kind = .write)).isSome then
    if !wait then (.errno 11, records)
    else if interrupted then (.errno 4, records)
    else (.waiting, records)
  else
    match grant span pid kind records with
    | (.ok (), records') => (.zero, records')
    | (.error code, records') => (.errno code, records')

/-- `fcntl` commands 5..7 and 36..38. `flock` is `none` when the user's memory cannot be read,
`copied` tells whether the reply of `F_GETLK` could be written back. -/
def command (fd : ProcessFd) (pid number : Nat) (flock : Option Flock) (interrupted copied : Bool)
    (records : Table) : Reply × Table :=
  match flock with
  | none => (.errno 14, records)
  | some flock =>
    match spanOf fd pid number flock with
    | .error code => (.errno code, records)
    | .ok span =>
      if number = 5 ∨ number = 36 then
        if copied then (.zero, records) else (.errno 14, records)
      else
        match lockKind flock.kind with
        | none => (.errno 22, records)
        | some kind => setLock (number = 7 ∨ number = 38) interrupted pid span kind records

def getLock (fd : ProcessFd) (pid number : Nat) (flock : Flock) (records : Table) :
    Except Nat Flock := do
  let span ← spanOf fd pid number flock
  return report flock (conflict records span.file span.owner span.start span.stop (flock.kind = 1))

inductive Call where
  | command (fd : ProcessFd) (pid number : Nat) (flock : Option Flock) (interrupted copied : Bool)
  | releaseProcess (pid : Nat) (file : Option Nat)
  | releaseOpenFile (handle : Nat)

def Call.run : Call → Table → Reply × Table
  | .command fd pid number flock interrupted copied, records =>
    Records.command fd pid number flock interrupted copied records
  | .releaseProcess pid file, records => (.zero, Records.releaseProcess pid file records)
  | .releaseOpenFile handle, records => (.zero, Records.releaseOpenFile handle records)

end AerOS.Records
