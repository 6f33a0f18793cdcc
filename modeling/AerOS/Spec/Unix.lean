import AerOS.Model.Unix
import AerOS.Spec.Descriptors

/-!
# Descriptors of AF_UNIX connections, known by their serial numbers
-/

namespace AerOS.Descriptors

inductive UnixCall
  | common (call : Common)
  | socketpair (limit : Nat) (message closeOnExec nonblocking copied : Bool)
  | socket (limit : Nat) (message closeOnExec nonblocking : Bool)
  | bind (descriptor : Nat) (name : List UInt8)
  | listen (descriptor : Nat)
  | connect (descriptor : Nat) (name : List UInt8)
  | accept (descriptor limit : Nat) (closeOnExec : Bool)
  | acceptAgain (handle limit : Nat) (closeOnExec : Bool)
  | openOther (limit : Nat) (fd : ProcessFd)
  | read (fd : ProcessFd) (room : Nat)
  | write (fd : ProcessFd) (source : List UInt8)

def Kernel.unixStep (k : Kernel) : UnixCall → Kernel
  | .common call => k.common call
  | .socketpair limit message closeOnExec nonblocking copied =>
    (k.linuxSocketpair limit message closeOnExec nonblocking copied).2
  | .socket limit message closeOnExec nonblocking => (k.linuxSocket limit message closeOnExec nonblocking).2
  | .bind descriptor name => (k.unixBind descriptor name).2
  | .listen descriptor => (k.unixListen descriptor).2
  | .connect descriptor name => (k.unixConnect descriptor name).2
  | .accept descriptor limit closeOnExec => (k.linuxAccept descriptor limit closeOnExec).2
  | .acceptAgain handle limit closeOnExec => (k.unixAccept handle limit closeOnExec).2
  | .openOther limit fd =>
    if fd.unixSocket = false ∧ fd.unixListener = false then ((k.installProcessFd limit fd).map (·.2)).getD k else k
  | .read fd room => (k.unixRead fd room).2
  | .write fd source => (k.unixWrite fd source).2

def Connected (fd : ProcessFd) : Prop :=
  fd.isOpen = true ∧ fd.unixSocket = true ∧ unixUnboundHandle fd.handle = false

/-- The pair that a descriptor refers to is that of its connection, with its end open. -/
def Attached (o : Objects) (fd : ProcessFd) : Prop :=
  Connected fd → fd.handle < unixPairCount ∧ (o.pairs fd.handle).used = true ∧ (o.pairs fd.handle).serial = fd.serial ∧
    (o.pairs fd.handle).endOpen fd.unixEndB = true

def ConnectionsKept (k : Kernel) : Prop :=
  ∀ process table, k.processes process = some table → ∀ d < processFdCount, Attached k.objects (table d)

/-- A read returns only what was sent on connections that the process has a descriptor of. -/
def Kernel.ReadsOwn (k : Kernel) : UnixCall → Prop
  | .read fd room => ∀ bytes, (k.unixRead fd room).1 = .done (.ok bytes) → ∀ byte ∈ bytes,
    ∃ d < processFdCount, Connected (k.fds d) ∧ (k.fds d).serial = byte.1
  | _ => True

/-- A connection waits in the backlog of the listener, and its client has not closed it. -/
def Objects.PendingOpen (o : Objects) (listener : Nat) : Prop :=
  ∃ slot, some slot ∈ (o.listeners listener).backlog ∧ (o.pairs slot).endAOpen = true

def ListenerOf (handle : Nat) (fd : ProcessFd) : Prop :=
  fd.isOpen = true ∧ fd.unixListener = true ∧ fd.handle = handle

/-- A call that closes a listener with such a connection leaves a descriptor of it in some table. -/
def Kernel.KeepsListeners (k : Kernel) (call : Common) : Prop :=
  ∀ d handle, k.closes call d → ListenerOf handle (k.fds d) → k.objects.PendingOpen handle →
    ∃ process table d', k.processes process = some table ∧ d' < processFdCount ∧ ListenerOf handle (table d') ∧
      ¬ (process = k.currentGroup ∧ k.closes call d')

/-- An `accept` of such a connection has a descriptor number for it. -/
def Kernel.CanAccept (k : Kernel) (handle limit : Nat) : Prop :=
  k.objects.PendingOpen handle → (k.installProcessFd limit {}).isSome = true

/-- A call that goes on has a descriptor of the end that it was made on in its process's table. -/
def Kernel.StillHas (k : Kernel) (fd : ProcessFd) : Prop :=
  ∃ d < processFdCount, Connected (k.fds d) ∧ (k.fds d).handle = fd.handle ∧ (k.fds d).unixEndB = fd.unixEndB ∧
    (k.fds d).serial = fd.serial

def Kernel.KeepsClients (k : Kernel) : UnixCall → Prop
  | .common call => k.KeepsListeners call
  | .accept descriptor limit _ => k.CanAccept (k.fds descriptor).handle limit
  | .acceptAgain handle limit _ => k.CanAccept handle limit
  | .read fd _ | .write fd _ => fd.handle < unixPairCount → k.StillHas fd
  | _ => True

end AerOS.Descriptors
