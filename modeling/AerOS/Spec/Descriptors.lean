import AerOS.Lib.Run
import AerOS.Model.Descriptors

/-!
# Processes and their descriptors

The calls that copy and close descriptors are moves on the tables of the live processes.
-/

namespace AerOS.Descriptors

/-- The calls that only copy and close descriptors, and what the scheduler does between calls. -/
inductive Common
  | dup (descriptor minimum : Nat) (closeOnExec : Bool)
  | dup2 (descriptor target : Nat)
  | dup3 (descriptor target : Nat) (closeOnExec : Bool)
  | close (descriptor : Nat)
  | start
  | fork (copied : Bool)
  | clone (copied : Bool)
  | exec (alone : Bool)
  | exit (code next : Nat)
  | exitGroup (code next : Nat)
  | switch (next : Nat) (stays : Bool)
  | reap (slot : Nat)

abbrev Processes := Nat → Option Table

namespace Kernel

def common (k : Kernel) : Common → Kernel
  | .dup descriptor minimum closeOnExec => (k.duplicateProcessFd descriptor minimum closeOnExec).2
  | .dup2 descriptor target => (k.linuxDup2 descriptor target).2
  | .dup3 descriptor target closeOnExec => (k.linuxDup3 descriptor target closeOnExec).2
  | .close descriptor => (k.linuxClose descriptor).2
  | .start => k.startUserTask
  | .fork copied => k.forkCurrentUserTask copied
  | .clone copied => k.cloneThread copied
  | .exec alone => k.exec alone
  | .exit code next => k.finishUserTask code next
  | .exitGroup code next => (k.exitGroup code).finishUserTask code next
  | .switch next stays => k.switchTo next stays
  | .reap slot => k.reap slot

def closes (k : Kernel) : Common → Nat → Prop
  | .dup2 descriptor target, d | .dup3 descriptor target _, d => d = target ∧ descriptor ≠ target
  | .close descriptor, d => d = descriptor
  | .exec _, d => (k.fds d).closeOnExec = true
  | .exit code _, _ => (k.taskFinished code).1 = true
  | .exitGroup code _, _ => ((k.exitGroup code).taskFinished code).1 = true
  | _, _ => False

def leaderOf (k : Kernel) (process : Nat) : Nat :=
  (position maxTasks fun i => (k.tasks i).id == process && (k.tasks i).state != .empty).getD 0

def tableOf (k : Kernel) (process : Nat) : Table :=
  if process = k.currentGroup then k.fds else (k.tasks (k.leaderOf process)).fds

def processes (k : Kernel) : Processes := fun process =>
  if k.groupLive process then some (k.tableOf process) else none

end Kernel

structure System where
  processes : Processes
  objects : Objects

def Kernel.system (k : Kernel) : System := ⟨k.processes, k.objects⟩

def Processes.Some (ps : Processes) (P : ProcessFd → Prop) : Prop :=
  ∃ process table, ps process = some table ∧ ∃ d < processFdCount, P (table d)

def Processes.Last (ps : Processes) (fd : ProcessFd) : Prop :=
  Kernel.countsReferences fd = true ∧ ¬ ps.Some fun other => sameOpenDescription other fd = true

def System.set (s : System) (process : Nat) (table : Option Table) : System :=
  { s with processes := Function.update s.processes process table }

/-- `R` says which entries of which processes are closed, and what is in them then. -/
inductive Move (R : Nat → Nat → ProcessFd → Prop) : System → System → Prop
  | copy {s : System} {process : Nat} {table : Table} (here : s.processes process = some table) {source target : Nat}
      (inside : source < processFdCount) (isOpen : (table source).isOpen = true) (free : (table target).isOpen = false)
      (closeOnExec : Bool) :
      Move R s (s.set process (some (Function.update table target { table source with closeOnExec })))
  /-- An entry is emptied that shares its description with another one, or refers to nothing counted. -/
  | drop {s : System} {process : Nat} {table : Table} (here : s.processes process = some table) {descriptor : Nat}
      (inside : descriptor < processFdCount) (isOpen : (table descriptor).isOpen = true)
      (allowed : R process descriptor (table descriptor))
      (shared : ¬ (s.set process (some (Function.update table descriptor {}))).processes.Last (table descriptor)) :
      Move R s (s.set process (some (Function.update table descriptor {})))
  /-- The last entry of a description is emptied, and what it refers to is released. -/
  | release {s : System} {process : Nat} {table : Table} (here : s.processes process = some table) {descriptor : Nat}
      (inside : descriptor < processFdCount) (isOpen : (table descriptor).isOpen = true)
      (allowed : R process descriptor (table descriptor))
      (last : (s.set process (some (Function.update table descriptor {}))).processes.Last (table descriptor)) :
      Move R s { s.set process (some (Function.update table descriptor {})) with
        objects := (s.objects.releaseProcessFd (table descriptor)).2 }
  | start {s : System} {process : Nat} (absent : s.processes process = none) :
      Move R s (s.set process (some initialProcessFds))
  | fork {s : System} {process child : Nat} {table : Table} (here : s.processes process = some table)
      (absent : s.processes child = none) : Move R s (s.set child (some table))
  | finish {s : System} {process : Nat} {table : Table} (here : s.processes process = some table)
      (closed : ∀ d < processFdCount, (table d).isOpen = false) : Move R s (s.set process none)

def Moves (R : Nat → Nat → ProcessFd → Prop) : System → System → Prop := Relation.ReflTransGen (Move R)

end AerOS.Descriptors
