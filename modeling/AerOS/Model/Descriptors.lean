import AerOS.Model.Ring

/-!
# Descriptors (`kernel/src/syscall.rs`, `kernel/src/scheduler.rs`)

The table of the running process is in `PROCESS_FDS`, that of every other process in the slot of the task that
started it. Nothing counts the descriptors of a pipe or of a socket: each close searches all tables for another one.

Left out are the fields of a descriptor that only file calls read, the tables of UDP, TCP and epoll
descriptors and of open files, and the descriptors on their way in messages.
-/

namespace AerOS.Descriptors
open AerOS.Ring

def processFdCount : Nat := 64
def pipeCount : Nat := 32
def pipeBufferBytes : Nat := 64 * 1024
def unixPairCount : Nat := 32
def unixListenerCount : Nat := 16
def unixListenerBacklog : Nat := 4
def ttyCount : Nat := 4
def maxTasks : Nat := 64

def devicePtmx : Nat := 8

def unixUnbound : Nat := 2 ^ 32 - 1
def unixUnboundMessage : Nat := 2 ^ 32 - 2
def peerNone : Nat := 2 ^ 32 - 1
def peerGone : Nat := 2 ^ 32 - 2

/-- `serial` is not in the source: it is the number of the pipe, connection or terminal the descriptor
was made for, and nothing is decided by it. -/
structure ProcessFd where
  handle : Nat := 0
  standard : Nat := 0
  isOpen : Bool := false
  closeOnExec : Bool := false
  socket : Bool := false
  pipe : Bool := false
  epoll : Bool := false
  unixSocket : Bool := false
  unixEndB : Bool := false
  unixListener : Bool := false
  readable : Bool := false
  writable : Bool := false
  tcp : Bool := false
  nonblocking : Bool := false
  serial : Nat := 0
deriving DecidableEq, Repr

abbrev Table := Nat → ProcessFd

def initialProcessFds : Table
  | 0 => { standard := 1, isOpen := true, readable := true }
  | 1 => { standard := 2, isOpen := true, writable := true }
  | 2 => { standard := 3, isOpen := true, writable := true }
  | _ => {}

structure Pipe where
  used : Bool := false
  head : Nat := 0
  length : Nat := 0
  readOpen : Bool := false
  writeOpen : Bool := false
  tty : Nat := 0
  canonical : Bool := false
  nowait : Bool := false
  eofPending : Nat := 0
  onlcr : Bool := false
  serial : Nat := 0
deriving DecidableEq, Repr

structure UnixPair where
  used : Bool := false
  message : Bool := false
  inbox : Bool := false
  peer : Nat := peerNone
  endAOpen : Bool := false
  endBOpen : Bool := false
  serial : Nat := 0
  /-- The bytes on their way, each with the serial number of the connection it was sent on. -/
  aToB : List (Nat × UInt8) := []
  bToA : List (Nat × UInt8) := []
deriving DecidableEq, Repr

structure UnixListener where
  used : Bool := false
  listening : Bool := false
  message : Bool := false
  inbox : Nat := peerNone
  name : List UInt8 := []
  backlog : List (Option Nat) := List.replicate unixListenerBacklog none
deriving DecidableEq, Repr

structure Tty where
  used : Bool := false
  input : Nat := 0
  output : Nat := 0
  pty : Bool := false
  slaveOpened : Bool := false
  serial : Nat := 0
deriving DecidableEq, Repr

inductive TaskState
  | empty | ready | running | exited
deriving DecidableEq, Repr

structure Task where
  id : Nat := 0
  tgid : Nat := 0
  state : TaskState := .empty
  groupCode : Option Nat := none
  fds : Table := initialProcessFds

/-- The tables that descriptors refer into. `nextSerial` numbers what is made, as the serials above. -/
structure Objects where
  pipes : Nat → Pipe
  rings : Nat → Data
  pairs : Nat → UnixPair
  listeners : Nat → UnixListener
  ttys : Nat → Tty
  nextSerial : Nat

structure Kernel where
  fds : Table
  tasks : Nat → Task
  current : Nat
  nextId : Nat
  objects : Objects

def Kernel.boot : Kernel where
  fds := initialProcessFds
  tasks slot := if slot = 0 then { state := .running } else {}
  current := 0
  nextId := 1
  objects := {
    pipes := fun _ => {}
    rings := fun _ _ => 0
    pairs := fun _ => {}
    listeners := fun _ => {}
    ttys := fun _ => {}
    nextSerial := 1 }

def position (count : Nat) (free : Nat → Bool) : Option Nat := (List.range count).find? free

namespace Task

def live (task : Task) : Bool := task.state == .ready || task.state == .running
def group (task : Task) : Nat := if task.tgid = 0 then task.id else task.tgid
def leads (task : Task) : Bool := task.tgid == 0 || task.tgid == task.id

end Task

namespace Kernel

def group (k : Kernel) (slot : Nat) : Nat := (k.tasks slot).group

def currentGroup (k : Kernel) : Nat := k.group k.current

def leaderSlot (k : Kernel) (slot : Nat) : Nat :=
  (position maxTasks fun i => (k.tasks i).id == k.group slot && (k.tasks i).state != .empty).getD slot

def groupHasOthers (k : Kernel) (slot : Nat) : Bool :=
  (List.range maxTasks).any fun i => i != slot && (k.tasks i).live && k.group i == k.group slot

def groupLive (k : Kernel) (group : Nat) : Bool :=
  (List.range maxTasks).any fun i => (k.tasks i).live && k.group i == group

/-- The tasks of the process that wait for the processor end at once. One that runs on another
processor ends itself at its next entry into the kernel. -/
def endSiblings (k : Kernel) : Kernel :=
  { k with tasks := fun i =>
      if i ≠ k.current ∧ k.group i = k.currentGroup ∧ (k.tasks i).state = .ready then
        { k.tasks i with state := .exited }
      else k.tasks i }

def switchState (k : Kernel) (current next : Nat) (discard : Bool) : Kernel :=
  if k.group current = k.group next then k
  else
    let tasks := if discard then k.tasks else
      Function.update k.tasks (k.leaderSlot current) { k.tasks (k.leaderSlot current) with fds := k.fds }
    { k with tasks, fds := (tasks (k.leaderSlot next)).fds }

/-- Another task is given the processor; on a machine with several, the departing one may go on in
user mode. -/
def switchTo (k : Kernel) (next : Nat) (stays : Bool) : Kernel :=
  if next < maxTasks ∧ (k.tasks next).live = true then
    let departing := { k.tasks k.current with state := if stays then .running else .ready }
    let tasks := Function.update k.tasks k.current departing
    let tasks := Function.update tasks next { tasks next with state := .running }
    switchState { k with tasks, current := next } k.current next false
  else k

def anyOtherTaskSharesFd (k : Kernel) (test : ProcessFd → Bool) : Bool :=
  (List.range maxTasks).any fun i =>
    (k.tasks i).leads && (k.tasks i).state != .empty && k.group i != k.currentGroup &&
      ((k.tasks i).state != .exited || k.groupLive (k.tasks i).id) &&
      (List.range processFdCount).any fun d => test ((k.tasks i).fds d)

end Kernel

def sameOpenDescription (left right : ProcessFd) : Bool :=
  left.isOpen && right.isOpen && left.standard == right.standard &&
    (left.standard == 0 || left.standard == devicePtmx) &&
    left.socket == right.socket && left.pipe == right.pipe && left.epoll == right.epoll &&
    left.unixSocket == right.unixSocket && left.unixListener == right.unixListener &&
    left.tcp == right.tcp && left.handle == right.handle &&
    (!left.pipe || left.readable == right.readable) &&
    (!left.unixSocket || left.unixEndB == right.unixEndB)

def unixUnboundHandle (handle : Nat) : Bool := decide (unixUnboundMessage ≤ handle)

namespace Objects

def inputClose (o : Objects) (slot : Nat) : Objects :=
  if slot < pipeCount then
    let pipe := if (o.pipes slot).readOpen then { o.pipes slot with writeOpen := false } else {}
    { o with pipes := Function.update o.pipes slot pipe }
  else o

def captureClose (o : Objects) (slot : Nat) : Objects :=
  if slot < pipeCount then
    let pipe := if (o.pipes slot).writeOpen then { o.pipes slot with readOpen := false } else {}
    { o with pipes := Function.update o.pipes slot pipe }
  else o

def detach (o : Objects) (index slot : Nat) : Objects :=
  if slot < pipeCount ∧ (o.pipes slot).tty = index + 1 then
    let pipe := { o.pipes slot with tty := 0, canonical := false, nowait := false, eofPending := 0, onlcr := false }
    { o with pipes := Function.update o.pipes slot pipe }
  else o

def releaseTty (o : Objects) (index : Nat) : Objects :=
  if index < ttyCount then
    let tty := o.ttys index
    (({ o with ttys := Function.update o.ttys index {} }).detach index tty.input).detach index tty.output
  else o

def closePipes (o : Objects) (slot : Nat) : Objects := (o.inputClose slot).captureClose slot

def closeMaster (o : Objects) (index : Nat) : Objects :=
  if index < ttyCount ∧ (o.ttys index).used = true ∧ (o.ttys index).pty = true then
    let tty := o.ttys index
    ((o.releaseTty index).closePipes tty.input).closePipes tty.output
  else o

def releasePipe (o : Objects) (fd : ProcessFd) : Int × Objects :=
  if fd.handle < pipeCount ∧ (o.pipes fd.handle).used = true then
    let pipe := o.pipes fd.handle
    let pipe := if fd.readable then { pipe with readOpen := false } else pipe
    let pipe := if fd.writable then { pipe with writeOpen := false } else pipe
    let pipe := if !pipe.readOpen && !pipe.writeOpen then {} else pipe
    (0, { o with pipes := Function.update o.pipes fd.handle pipe })
  else (-9, o)

def releaseUnixSocket (o : Objects) (fd : ProcessFd) : Int × Objects :=
  if unixUnboundHandle fd.handle then (0, o)
  else if fd.handle < unixPairCount ∧ (o.pairs fd.handle).used = true then
    let pair := o.pairs fd.handle
    let pair := if fd.unixEndB then { pair with endBOpen := false } else { pair with endAOpen := false }
    let inboxClosed := pair.inbox && !pair.endBOpen
    let freed := inboxClosed || !pair.endAOpen && !pair.endBOpen
    let pairs := Function.update o.pairs fd.handle (if freed then {} else pair)
    if inboxClosed then
      (0, { o with
        pairs := fun i =>
          if i < unixPairCount ∧ (pairs i).used = true ∧ (pairs i).inbox = true ∧ (pairs i).peer = fd.handle then
            { pairs i with peer := peerGone }
          else pairs i
        listeners := fun i =>
          if i < unixListenerCount ∧ (o.listeners i).used = true ∧ (o.listeners i).inbox = fd.handle then {}
          else o.listeners i })
    else (0, { o with pairs })
  else (-9, o)

def releaseUnixListener (o : Objects) (fd : ProcessFd) : Int × Objects :=
  if fd.handle < unixListenerCount ∧ (o.listeners fd.handle).used = true then
    let pending := (o.listeners fd.handle).backlog.filterMap id
    (0, { o with
      pairs := pending.foldl (fun pairs slot => Function.update pairs slot {}) o.pairs
      listeners := Function.update o.listeners fd.handle {} })
  else (-9, o)

/-- `release_process_fd`; the branches of the other kinds of descriptors change other tables. -/
def releaseProcessFd (o : Objects) (fd : ProcessFd) : Int × Objects :=
  if fd.standard = devicePtmx then (0, o.closeMaster fd.handle)
  else if fd.standard ≠ 0 then (0, o)
  else if fd.socket then (0, o)
  else if fd.pipe then o.releasePipe fd
  else if fd.unixSocket then o.releaseUnixSocket fd
  else if fd.unixListener then o.releaseUnixListener fd
  else (0, o)

def makePipe (o : Objects) : Option (Nat × Objects) :=
  match position pipeCount fun i => !(o.pipes i).used with
  | none => none
  | some slot =>
    let pipe : Pipe := { used := true, readOpen := true, writeOpen := true, serial := o.nextSerial }
    some (slot, { o with pipes := Function.update o.pipes slot pipe, nextSerial := o.nextSerial + 1 })

end Objects

namespace Kernel

def releaseProcessFd (k : Kernel) (fd : ProcessFd) : Int × Kernel :=
  ((k.objects.releaseProcessFd fd).1, { k with objects := (k.objects.releaseProcessFd fd).2 })

def setFd (k : Kernel) (index : Nat) (fd : ProcessFd) : Kernel :=
  { k with fds := Function.update k.fds index fd }

def sharedHere (k : Kernel) (fd : ProcessFd) : Bool :=
  (List.range processFdCount).any fun d => sameOpenDescription (k.fds d) fd

def sharedElsewhere (k : Kernel) (fd : ProcessFd) : Bool :=
  k.anyOtherTaskSharesFd fun candidate => sameOpenDescription candidate fd

def countsReferences (fd : ProcessFd) : Bool := fd.standard == 0 || fd.standard == devicePtmx

def removeProcessFd (k : Kernel) (descriptor : Nat) : Option (ProcessFd × Bool × Kernel) :=
  if descriptor < processFdCount ∧ (k.fds descriptor).isOpen = true then
    let fd := k.fds descriptor
    let k := k.setFd descriptor {}
    some (fd, countsReferences fd && !k.sharedHere fd && !k.sharedElsewhere fd, k)
  else none

def linuxClose (k : Kernel) (descriptor : Nat) : Int × Kernel :=
  match k.removeProcessFd descriptor with
  | none => (-9, k)
  | some (fd, last, k) => if last then k.releaseProcessFd fd else (0, k)

def lookupProcessFd (k : Kernel) (descriptor : Nat) : Option ProcessFd :=
  if descriptor < processFdCount ∧ (k.fds descriptor).isOpen = true then some (k.fds descriptor) else none

def duplicateProcessFd (k : Kernel) (descriptor minimum : Nat) (closeOnExec : Bool) : Int × Kernel :=
  if processFdCount ≤ minimum then (-22, k)
  else match k.lookupProcessFd descriptor with
    | none => (-9, k)
    | some source =>
      match position processFdCount fun i => decide (minimum ≤ i) && !(k.fds i).isOpen with
      | none => (-24, k)
      | some target => (target, k.setFd target { source with closeOnExec })

def duplicateProcessFdExact (k : Kernel) (descriptor target : Nat) (closeOnExec : Bool) : Int × Kernel :=
  if processFdCount ≤ target then (-9, k)
  else match k.lookupProcessFd descriptor with
    | none => (-9, k)
    | some source =>
      let previous := k.fds target
      let k := k.setFd target { source with closeOnExec }
      let last := countsReferences previous && !k.sharedHere previous
      if previous.isOpen && last && !k.sharedElsewhere previous then
        let (result, k) := k.releaseProcessFd previous
        (if result ≠ 0 then result else target, k)
      else (target, k)

def linuxDup2 (k : Kernel) (descriptor target : Nat) : Int × Kernel :=
  match k.lookupProcessFd descriptor with
  | none => (-9, k)
  | some _ => if descriptor = target then (target, k) else k.duplicateProcessFdExact descriptor target false

def linuxDup3 (k : Kernel) (descriptor target : Nat) (closeOnExec : Bool) : Int × Kernel :=
  if descriptor = target then (-22, k) else k.duplicateProcessFdExact descriptor target closeOnExec

def installProcessFd (k : Kernel) (limit : Nat) (fd : ProcessFd) : Option (Nat × Kernel) :=
  match position processFdCount fun i => !(k.fds i).isOpen with
  | none => none
  | some index => if limit ≤ index then none else some (index, k.setFd index { fd with isOpen := true })

def clearPipe (k : Kernel) (slot : Nat) : Kernel :=
  { k with objects.pipes := Function.update k.objects.pipes slot {} }

def dropFd (k : Kernel) (descriptor : Nat) : Kernel := k.setFd descriptor {}

/-- `linux_pipe2`; `copied` says whether the two numbers could be stored. -/
def linuxPipe2 (k : Kernel) (limit : Nat) (closeOnExec copied : Bool) : Int × Kernel :=
  match k.objects.makePipe with
  | none => (-24, k)
  | some (slot, objects) =>
    let half : ProcessFd := { handle := slot, pipe := true, closeOnExec, serial := k.objects.nextSerial }
    let k := { k with objects }
    match k.installProcessFd limit { half with readable := true } with
    | none => (-24, k.clearPipe slot)
    | some (readFd, k) =>
      match k.installProcessFd limit { half with writable := true } with
      | none => (-24, (k.dropFd readFd).clearPipe slot)
      | some (writeFd, k) =>
        if copied then (0, k) else (-14, ((k.dropFd readFd).dropFd writeFd).clearPipe slot)

def spawn (k : Kernel) (task : Nat → Task) : Option Kernel :=
  match position maxTasks fun i => (k.tasks i).state == .empty with
  | none => none
  | some slot =>
    some { k with tasks := Function.update k.tasks slot (task k.nextId), nextId := k.nextId + 1 }

def startUserTask (k : Kernel) : Kernel := (k.spawn fun id => { id, state := .ready }).getD k

/-- `fork_current_user_task`; `copied` says whether memory could be found for the child. The boot task
has no address space to copy. -/
def forkCurrentUserTask (k : Kernel) (copied : Bool) : Kernel :=
  if copied && k.currentGroup != 0 then (k.spawn fun id => { id, state := .ready, fds := k.fds }).getD k else k

def reapExitedThreads (k : Kernel) : Kernel :=
  { k with tasks := fun i => if !(k.tasks i).leads && (k.tasks i).state == .exited then {} else k.tasks i }

def cloneThread (k : Kernel) (copied : Bool) : Kernel :=
  let k := k.reapExitedThreads
  if copied && k.currentGroup != 0 then
    (k.spawn fun id => { id, tgid := k.currentGroup, state := .ready }).getD k
  else k

/-- `reap` on one slot. That a process waits here until its parent has asked for it only delays this. -/
def reap (k : Kernel) (slot : Nat) : Kernel :=
  if (k.tasks slot).state = .exited ∧ ¬ ((k.tasks slot).leads = true ∧ k.groupLive (k.tasks slot).id = true) then
    { k with tasks := Function.update k.tasks slot {} }
  else k

def closeFd (k : Kernel) (descriptor : Nat) : Kernel := (k.linuxClose descriptor).2

def closeAllProcessFds (k : Kernel) : Kernel := (List.range processFdCount).foldl closeFd k

def execResetProcessState (k : Kernel) : Kernel :=
  ((List.range processFdCount).filter fun i => (k.fds i).isOpen && (k.fds i).closeOnExec).foldl closeFd k

def exec (k : Kernel) (alone : Bool) : Kernel :=
  (if alone then k.endSiblings else k).execResetProcessState

def exitGroup (k : Kernel) (code : Nat) : Kernel :=
  let leader := k.leaderSlot k.current
  { k with tasks := Function.update k.tasks leader { k.tasks leader with groupCode := some code } }.endSiblings

def fatalCode (code : Nat) : Bool := [132, 134, 135, 136, 137, 139].contains code

def taskFinished (k : Kernel) (code : Nat) : Bool × Kernel :=
  let leader := k.leaderSlot k.current
  if k.groupHasOthers k.current then
    if (k.tasks leader).groupCode.isSome || !fatalCode code then (false, k)
    else (true, k.exitGroup code)
  else (true, k)

def exitCurrent (k : Kernel) (next : Nat) : Kernel :=
  if next < maxTasks ∧ next ≠ k.current ∧ (k.tasks next).live = true then
    let tasks := Function.update k.tasks k.current { k.tasks k.current with state := .exited }
    let tasks := Function.update tasks next { tasks next with state := .running }
    let k' := { k with tasks, current := next }
    k'.switchState k.current next (!k'.groupHasOthers k.current)
  else k

def finishUserTask (k : Kernel) (code next : Nat) : Kernel :=
  let (finished, k) := k.taskFinished code
  (if finished then k.closeAllProcessFds else k).exitCurrent next

end Kernel
end AerOS.Descriptors
