import AerOS.Lib.Run
import AerOS.Model.Futex

/-!
# Wait queues, replayed from the events of a run
-/

namespace AerOS.Futex

structure Call where
  slot : Slot
  limit : Option Nat
  sequence : Nat

structure System where
  table : Table
  calls : UInt64 → Option Call
  log : List Event
  panicked : Bool

def System.start : System := ⟨.empty, fun _ => none, [], false⟩

inductive Label where
  | call (env : Env) (arguments : Arguments)
  /-- The task runs again after a yield; a signal may be pending and it is `now`. -/
  | resume (task : UInt64) (interrupted : Bool) (now : Nat)

def perform (s : System) (task : UInt64) (effect : Effect) : System :=
  match effect.reply with
  | .returned _ => { s with table := effect.table, log := s.log ++ effect.events }
  | .blocked slot limit _ =>
    { s with
      table := effect.table
      calls := Function.update s.calls task (some ⟨slot, limit, (effect.table.waiters slot).sequence⟩)
      log := s.log ++ effect.events }
  | .panicked => { s with panicked := true }

def step (s : System) : Label → System
  | .call env arguments =>
    if s.panicked || (s.calls env.task).isSome then s else perform s env.task (operate env arguments s.table)
  | .resume task interrupted now =>
    match s.calls task with
    | none => s
    | some call =>
      match blockTurn call.slot call.limit interrupted now s.table with
      | (none, _) => s
      | (some result, table) =>
        { s with
          table := table
          calls := Function.update s.calls task none
          log := s.log ++ [.returned call.sequence result] }

/-- The call is none of those for priority inheritance, and the tasks that wait are alive. -/
def Allowed (s : System) : Label → Prop
  | .call env arguments =>
    arguments.operation &&& 0x7f ∉ ([6, 7, 8] : List UInt64) ∧
      ∀ task, (s.calls task).isSome → env.live task = true
  | .resume _ _ _ => True

structure Entry where
  sequence : Nat
  word : Key
  bitset : UInt32
  woken : Bool
deriving DecidableEq

def Entry.eligible (word : Key) (bitset : UInt32) (entry : Entry) : Bool :=
  !entry.woken && entry.word == word && entry.bitset &&& bitset != 0

def replay (entries : List Entry) : Event → List Entry
  | .queued sequence word bitset => entries ++ [⟨sequence, word, bitset, false⟩]
  | .woke _ _ _ woken =>
    entries.map fun entry => if entry.sequence ∈ woken then { entry with woken := true } else entry
  | .moved word moved =>
    entries.map fun entry => if entry.sequence ∈ moved then { entry with word := word } else entry
  | .returned sequence _ => entries.filter fun entry => entry.sequence != sequence

def waiting (log : List Event) : List Entry := log.foldl replay []

def Fits (log : List Event) : Event → Prop
  | .queued sequence _ _ => ∀ earlier word bitset, .queued earlier word bitset ∈ log → earlier < sequence
  | .woke word bitset count woken =>
    woken = (((waiting log).filter (Entry.eligible word bitset)).take count).map Entry.sequence
  | .moved _ moved => ∀ sequence ∈ moved, ∃ entry ∈ waiting log, entry.sequence = sequence ∧ entry.woken = false
  | .returned sequence result =>
    ∃ entry ∈ waiting log, entry.sequence = sequence ∧ (result = .ok 0 ↔ entry.woken = true)

inductive Accepted : List Event → Prop
  | nil : Accepted []
  | snoc {log : List Event} {event : Event} (before : Accepted log) (fits : Fits log event) :
      Accepted (log ++ [event])

def Event.returnsFor (sequence : Nat) : Event → Bool
  | .returned s _ => s == sequence
  | _ => false

def Woken (log : List Event) (sequence : Nat) : Prop :=
  ∃ word bitset count woken, .woke word bitset count woken ∈ log ∧ sequence ∈ woken

structure Accounting (s : System) : Prop where
  accepted : Accepted s.log
  once : ∀ sequence, s.log.countP (Event.returnsFor sequence) ≤ 1
  zero : ∀ sequence result, .returned sequence result ∈ s.log → (result = .ok 0 ↔ Woken s.log sequence)
  listed : ∀ entry ∈ waiting s.log, ∃ task call, s.calls task = some call ∧ call.sequence = entry.sequence
  waits : ∀ task call, s.calls task = some call → ∃ entry ∈ waiting s.log, entry.sequence = call.sequence
  returns : ∀ task call, s.calls task = some call → Woken s.log call.sequence → ∀ interrupted now,
    (step s (.resume task interrupted now)).log = s.log ++ [.returned call.sequence (.ok 0)]

/-- A slot of the table is in use exactly as long as one task waits in it. -/
def SlotsHeld (s : System) : Prop :=
  ∀ slot, (s.table.waiters slot).used = true ↔ ∃! task, ∃ call, s.calls task = some call ∧ call.slot = slot

end AerOS.Futex
