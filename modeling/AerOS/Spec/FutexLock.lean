import AerOS.Lib.Run
import AerOS.Model.Futex

/-!
# Threads of one process around one priority-inheritance lock

A thread that has exited never comes back.
-/

namespace AerOS.Futex.Lock
open Lib Function

structure Blocked where
  slot : Slot
  limit : Option Nat
  sequence : Nat
deriving DecidableEq

structure State where
  table : Table
  word : UInt32
  live : UInt64 → Bool
  blocked : UInt64 → Option Blocked
  /-- The thread's last successful call on the lock took it. -/
  holds : UInt64 → Bool
  panicked : Bool

def start (live : UInt64 → Bool) : State := ⟨.empty, 0, live, fun _ => none, fun _ => false, false⟩

inductive Label where
  | lock (env : Env) (timeout : UInt64) (realtime : Bool)
  | tryLock (env : Env)
  | unlock (env : Env)
  | resume (env : Env) (interrupted : Bool)
  | exit (env : Env) (list : Option RobustList)

section
variable (group address : UInt64)

/-- The answers of `env`, for a thread of the process that finds the lock word as the state has it. -/
def State.view (s : State) (env : Env) : Env :=
  { env with
    group := group
    live := s.live
    readWord := update env.readWord address (some s.word)
    writable := update env.writable address true }

/-- The state after a call of `task`; a call that returns zero takes or gives back the lock. -/
def State.perform (s : State) (task : UInt64) (takes : Bool) (effect : Effect) : State :=
  let s := { s with table := effect.table, word := (effect.memory address).getD s.word }
  match effect.reply with
  | .returned result =>
    { s with
      blocked := update s.blocked task none
      holds := if result = .ok 0 then update s.holds task takes else s.holds }
  | .blocked slot limit _ =>
    { s with blocked := update s.blocked task (some ⟨slot, limit, (effect.table.waiters slot).sequence⟩) }
  | .panicked => { s with blocked := update s.blocked task none, panicked := true }

def State.runs (s : State) (task : UInt64) : Bool :=
  !s.panicked && s.live task && (s.blocked task).isNone

def resume (s : State) (env : Env) (interrupted : Bool) (b : Blocked) : State :=
  match blockTurn b.slot b.limit interrupted env.now s.table with
  | (none, _) => s
  | (some (.error _), table) => { s with table := table, blocked := update s.blocked env.task none }
  | (some (.ok _), table) =>
    s.perform address env.task true (lockTurn (s.view group address env) address b.limit true table)

def exit (s : State) (env : Env) (list : Option RobustList) : State :=
  let (memory, table) :=
    match list with
    | some list => robustCleanup (s.view group address env) list env.task.toUInt32 s.table
    | none => ((s.view group address env).readWord, s.table)
  { s with table := table, word := (memory address).getD s.word, live := update s.live env.task false }

def step (s : State) : Label → State
  | .lock env timeout realtime =>
    if s.runs env.task then
      s.perform address env.task true (lockPi (s.view group address env) address timeout realtime s.table)
    else s
  | .tryLock env =>
    if s.runs env.task then
      s.perform address env.task true (tryLockPi (s.view group address env) address s.table)
    else s
  | .unlock env =>
    if s.runs env.task then
      s.perform address env.task false (unlockPi (s.view group address env) address s.table)
    else s
  | .resume env interrupted =>
    match s.blocked env.task with
    | some b => if s.panicked then s else resume group address s env interrupted b
    | none => s
  | .exit env list => if s.runs env.task then exit group address s env list else s

end

def State.owner (s : State) : UInt64 := (s.word &&& tidMask).toUInt64

/-- The thread is blocked in the call with that sequence number, and nothing has woken it yet. -/
def State.Waits (s : State) (task : UInt64) (sequence : Nat) : Prop :=
  ∃ b, s.blocked task = some b ∧ b.sequence = sequence ∧ (s.table.waiters b.slot).woken = false

def State.Woken (s : State) (task : UInt64) (sequence : Nat) : Prop :=
  ∃ b, s.blocked task = some b ∧ b.sequence = sequence ∧ (s.table.waiters b.slot).woken = true

def State.Ownerless (s : State) : Prop :=
  s.owner = 0 ∨ s.live s.owner = false ∨ s.word &&& ownerDied ≠ 0

def State.Oldest (s : State) (task : UInt64) (sequence : Nat) : Prop :=
  s.Waits task sequence ∧ ∀ other number, s.Waits other number → sequence ≤ number

structure Safe (group address : UInt64) (s : State) : Prop where
  exclusive : ∀ t u, s.live t = true → s.live u = true → s.holds t = true → s.holds u = true → t = u
  /-- Of the threads that wait, each is woken in some continuation of the run. -/
  served : s.panicked = false → s.Ownerless → ∀ task sequence, s.Waits task sequence →
    ∃ labels, (Run.final (step group address) s labels).Woken task sequence

/-- An unlock by the owner, and the owner's death, wake the oldest waiter. -/
def WakesOldest (group address : UInt64) (s : State) (label : Label) : Prop :=
  match label with
  | .unlock env | .exit env _ =>
    s.runs env.task = true → s.owner = env.task → ∀ task sequence, s.Oldest task sequence →
      (step group address s label).Woken task sequence
  | _ => True

/-- No thread exits while a thread that has not been woken waits for it. -/
def NotAwaited (s : State) : Label → Prop
  | .exit env _ => ∀ slot, (s.table.waiters slot).used = true → (s.table.waiters slot).woken = false →
      (s.table.waiters slot).owner ≠ env.task.toUInt32
  | _ => True

def SmallIds (live : UInt64 → Bool) : Prop := ∀ task, live task = true → task ≠ 0 ∧ task.toNat < 2 ^ 30

end AerOS.Futex.Lock
