import AerOS.Lib.Run
import AerOS.Model.Smp

/-!
# Any interleaving of `spawn`, `run_next` and `wait`

A step is what one call does while it holds the lock. A function that has not returned is a flight.
-/

namespace AerOS.Smp
open Function

structure Accepted where
  slot : Slot
  function : UInt64
  argument : UInt64
  affinity : Mask
deriving DecidableEq

structure History where
  accepted : List Accepted
  /-- The function called, its argument and the CPU. -/
  starts : List (Option UInt64 × UInt64 × Nat)
  returns : List Nat
  waits : List Nat
deriving DecidableEq

def History.empty : History := ⟨[], [], [], []⟩

structure Flight where
  slot : Slot
  cpu : Nat
  id : Nat
deriving DecidableEq

structure System where
  table : Table
  flights : List Flight
  spawned : Nat
  history : Nat → History

def System.start : System := ⟨.start, [], 0, fun _ => .empty⟩

inductive Label where
  | spawn (online : Mask) (function argument : UInt64) (nice : Int) (affinity : Mask)
  | runNext (cpu : Nat)
  | land (flight : Flight)
  | wait (id : Nat)
  | pause (mask : Mask)

def System.note (s : System) (id : Nat) (change : History → History) : Nat → History :=
  update s.history id (change (s.history id))

def step (s : System) : Label → System
  | .spawn online function argument nice affinity =>
    match spawn online function argument nice affinity s.table with
    | none => s
    | some (id, slot, table) =>
      { s with
        table := table
        spawned := s.spawned + 1
        history := s.note id fun h => { h with accepted := h.accepted ++ [⟨slot, function, argument, affinity⟩] } }
  | .runNext cpu =>
    match runNextTake cpu s.table with
    | none => s
    | some (slot, table) =>
      let job := table.jobs slot
      { s with
        table := table
        flights := ⟨slot, cpu, job.id⟩ :: s.flights
        history := s.note job.id fun h => { h with starts := h.starts ++ [(job.function, job.argument, cpu)] } }
  | .land flight =>
    if flight ∈ s.flights then
      { s with
        table := runNextFinish flight.slot flight.cpu s.table
        flights := s.flights.erase flight
        history := s.note flight.id fun h => { h with returns := h.returns ++ [flight.cpu] } }
    else s
  | .wait id =>
    match waitTurn id s.table with
    | none => s
    | some (cpu, table) =>
      { s with table := table, history := s.note id fun h => { h with waits := h.waits ++ [cpu] } }
  | .pause mask => { s with table := { s.table with paused := mask } }

/-- The job was accepted once, started at most once and as it was asked for; it has its slot until one `wait`
has given the CPU it ran on, after its function returned there. -/
def RunsOnce (t : Table) (id : Nat) (h : History) : Prop :=
  h = .empty ∨ ∃ a, h.accepted = [a] ∧
    (h.starts = [] ∨ ∃ cpu, a.affinity.getLsbD cpu ∧ h.starts = [(some a.function, a.argument, cpu)]) ∧
    (h.waits = [] ∧ (t.jobs a.slot).id = id ∧ (t.jobs a.slot).state ≠ .free ∨
      ∃ cpu, h.waits = [cpu] ∧ h.returns = [cpu] ∧ h.starts = [(some a.function, a.argument, cpu)])

end AerOS.Smp
