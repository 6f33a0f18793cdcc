import Mathlib.Data.Fintype.Pi
import Mathlib.Data.Prod.Lex

/-!
# Jobs of the application processors (`kernel/src/smpsched.rs`)

`run_next` takes the lock twice: `runNextTake` is what it does before the job's function is called, and
`runNextFinish` what it does after. `waitTurn` is one turn of the loop of `wait`.
-/

namespace AerOS.Smp
open Function

def maxJobs : Nat := 64

def maxProcessors : Nat := 8

def agingStep : Int := 4

inductive State where
  | free
  | queued
  | running
  | done
deriving DecidableEq

abbrev Mask := BitVec 64

structure Job where
  state : State
  id : Nat
  function : Option UInt64
  argument : UInt64
  nice : Int
  affinity : Mask
  cpu : Nat
  waited : Nat
  ranOn : Nat
deriving DecidableEq

def Job.empty : Job := ⟨.free, 0, none, 0, 0, 0, 0, 0, 0⟩

abbrev Slot := Fin maxJobs

structure Table where
  jobs : Slot → Job
  nextId : Nat
  paused : Mask
  executed : Nat → Nat
  steals : Nat

def Table.start : Table := ⟨fun _ => .empty, 1, 0, fun _ => 0, 0⟩

def chooseCpu (loads : Nat → Nat) (allowed : Mask) : Option Nat :=
  ((List.range maxProcessors).filter fun cpu => allowed.getLsbD cpu).minOn? fun cpu => toLex (loads cpu, cpu)

def stealVictim (queued : Nat → Nat) (thief : Nat) : Option Nat :=
  ((List.range maxProcessors).filter fun cpu => cpu ≠ thief ∧ 1 < queued cpu).maxOn? fun cpu =>
    toLex (queued cpu, OrderDual.toDual cpu)

def Table.indices (t : Table) (test : Job → Bool) : List Slot :=
  (List.finRange maxJobs).filter fun slot => test (t.jobs slot)

def Table.queued (t : Table) (cpu : Nat) : Nat :=
  (t.indices fun job => job.state = .queued ∧ job.cpu = cpu).length

def Table.load (t : Table) (cpu : Nat) : Nat :=
  (t.indices fun job => (job.state = .queued ∨ job.state = .running) ∧ job.cpu = cpu).length

def spawn (online : Mask) (function argument : UInt64) (nice : Int) (affinity : Mask) (t : Table) :
    Option (Nat × Slot × Table) :=
  let allowed := online &&& ~~~1 &&& affinity
  if allowed = 0 then none
  else do
    let cpu ← chooseCpu t.load allowed
    let slot ← (t.indices fun job => job.state = .free).head?
    let job := ⟨.queued, t.nextId, some function, argument, max (-20) (min nice 19), affinity, cpu, 0, 0⟩
    some (t.nextId, slot,
      { t with jobs := update t.jobs slot job, nextId := max ((t.nextId + 1) % 2 ^ 32) 1 })

def waitTurn (id : Nat) (t : Table) : Option (Nat × Table) := do
  let slot ← (t.indices fun job => job.id = id ∧ job.state ≠ .free).head?
  if (t.jobs slot).state = .done then
    some ((t.jobs slot).ranOn, { t with jobs := update t.jobs slot .empty })
  else none

def pickWeighted (t : Table) (candidates : List Slot) : Option Slot :=
  candidates.minOn? fun slot => (t.jobs slot).nice - (t.jobs slot).waited / agingStep

def pick (t : Table) (cpu : Nat) : Option (Slot × Table) := do
  let candidates := t.indices fun job => job.state = .queued ∧ job.cpu = cpu
  let chosen ← pickWeighted t candidates
  let age (slot : Slot) : Job :=
    if slot ∈ candidates ∧ slot ≠ chosen then
      { t.jobs slot with waited := min ((t.jobs slot).waited + 1) 255 }
    else t.jobs slot
  some (chosen, { t with jobs := age })

def steal (t : Table) (thief : Nat) : Option (Slot × Table) := do
  let victim ← stealVictim t.queued thief
  let chosen ← pickWeighted t
    (t.indices fun job => job.state = .queued ∧ job.cpu = victim ∧ job.affinity.getLsbD thief)
  some (chosen,
    { t with jobs := update t.jobs chosen { t.jobs chosen with cpu := thief }, steals := t.steals + 1 })

def runNextTake (cpu : Nat) (t : Table) : Option (Slot × Table) :=
  if maxProcessors ≤ cpu ∨ t.paused.getLsbD cpu then none
  else do
    let (slot, t) ← (pick t cpu).or (steal t cpu)
    some (slot, { t with jobs := update t.jobs slot { t.jobs slot with state := .running, cpu := cpu } })

def runNextFinish (slot : Slot) (cpu : Nat) (t : Table) : Table :=
  { t with
    jobs := update t.jobs slot { t.jobs slot with state := .done, ranOn := cpu }
    executed := update t.executed cpu (t.executed cpu + 1) }

end AerOS.Smp
