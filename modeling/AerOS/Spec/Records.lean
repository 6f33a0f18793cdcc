import AerOS.Model.Records
import AerOS.Lib.Run

/-!
# Record locks byte by byte

The table is compared with a lock map that gives each owner a lock on each byte of each file.
-/

namespace AerOS.Records

/-- The lock `owner` holds on a byte of `file`: `some true` to write, `some false` to read. -/
def lockOf (records : Table) (file owner byte : Nat) : Option Bool :=
  (records.toList.find? fun record =>
    record.holdsFor file owner && decide (record.start ≤ byte ∧ byte < record.stop)).map Record.write

abbrev LockMap := Nat → Nat → Nat → Option Bool

def LockKind.mode : LockKind → Option Bool
  | .read => some false
  | .write => some true
  | .unlock => none

def LockMap.assign (locks : LockMap) (span : Span) (mode : Option Bool) : LockMap :=
  fun file owner byte =>
    if file = span.file ∧ owner = span.owner ∧ span.start ≤ byte ∧ byte < span.stop then mode
    else locks file owner byte

def LockMap.drop (locks : LockMap) (pid : Nat) (file : Option Nat) : LockMap :=
  fun name owner byte => if owner = pid ∧ file.all (name == ·) then none else locks name owner byte

def Call.request : Call → Option (Span × LockKind)
  | .command fd pid number (some flock) _ _ =>
    match spanOf fd pid number flock with
    | .ok span =>
      if number = 5 ∨ number = 36 then none else (lockKind flock.kind).map fun kind => (span, kind)
    | .error _ => none
  | _ => none

def Call.effect (call : Call) (locks : LockMap) : LockMap :=
  match call with
  | .releaseProcess pid file => locks.drop pid file
  | .releaseOpenFile handle => locks.drop (openFile ||| handle) none
  | .command .. =>
    match call.request with
    | some (span, kind) => locks.assign span kind.mode
    | none => locks

structure State where
  records : Table
  locks : LockMap

def State.initial : State := ⟨Table.empty, fun _ _ _ => none⟩

def State.step (s : State) (call : Call) : State :=
  let (reply, records) := call.run s.records
  ⟨records, if reply = .zero then call.effect s.locks else s.locks⟩

structure LocksCorrect (s : State) : Prop where
  disjoint : ∀ i j : Fin recordCount, i ≠ j → (s.records.get i).used = true → (s.records.get j).used = true →
    (s.records.get i).file = (s.records.get j).file → (s.records.get i).owner = (s.records.get j).owner →
    (s.records.get i).stop ≤ (s.records.get j).start ∨ (s.records.get j).stop ≤ (s.records.get i).start
  last : ∀ file owner byte, lockOf s.records file owner byte = s.locks file owner byte
  exclusive : ∀ file byte owner other, owner ≠ other → lockOf s.records file owner byte = some true →
    lockOf s.records file other byte = none

def Exclusive (records : Table) : Prop := ∀ file byte owner other,
  lockOf records file owner byte = some true → lockOf records file other byte ≠ none → owner = other

def overlapped (records : Table) (span : Span) : List Record :=
  records.toList.filter fun record =>
    record.holdsFor span.file span.owner && record.meets span.start span.stop

def leftOver (records : Table) (span : Span) : Nat :=
  ((overlapped records span).map fun record => (record.outside span.start span.stop).length).sum

def freeSlots (records : Table) : Nat := (records.toList.filter fun record => !record.used).length

/-- A request that no other owner's lock stands against, and that meets a lock of its own owner,
finds room for all that it leaves: the parts outside the range and the new lock. -/
def Fits (records : Table) (call : Call) : Prop :=
  match call.request with
  | none => True
  | some (span, kind) =>
    (kind = .unlock ∨
      conflict records span.file span.owner span.start span.stop (kind = .write) = none) →
    overlapped records span ≠ [] →
    leftOver records span + (if kind = .unlock then 0 else 1) ≤
      freeSlots records + (overlapped records span).length

end AerOS.Records
