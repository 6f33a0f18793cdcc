import AerOS.Model.Streams

/-!
# AF_UNIX stream and seqpacket sockets (`kernel/src/syscall.rs`)

A descriptor of one end of a connection has the index of its pair. Names are the bytes that `read_unix_name` returns.
The rings of a pair are lists here, and a read or write is one attempt with the descriptor that the call looked up when
it began.
-/

namespace AerOS.Descriptors
open AerOS.Streams

namespace UnixPair

def endOpen (pair : UnixPair) (endB : Bool) : Bool := if endB then pair.endBOpen else pair.endAOpen

def incoming (pair : UnixPair) (endB : Bool) : List (Nat × UInt8) := if endB then pair.aToB else pair.bToA

def setIncoming (pair : UnixPair) (endB : Bool) (queue : List (Nat × UInt8)) : UnixPair :=
  if endB then { pair with aToB := queue } else { pair with bToA := queue }

def take (pair : UnixPair) (endB : Bool) (room : Nat) : Turn (List (Nat × UInt8)) × UnixPair :=
  let queue := pair.incoming endB
  if pair.used = false then (.done (.error 9), pair)
  else if queue ≠ [] then
    if pair.message then
      let size := headerSize ((queue.take 2).map Prod.snd)
      (.done (.ok ((queue.drop 2).take (min size room))), pair.setIncoming endB (queue.drop (2 + size)))
    else (.done (.ok (queue.take room)), pair.setIncoming endB (queue.drop room))
  else if pair.endOpen (!endB) = false then (.done (.ok []), pair)
  else (.again, pair)

def put (pair : UnixPair) (endB : Bool) (serial : Nat) (source : List UInt8) : Turn Nat × UnixPair :=
  let queue := pair.incoming !endB
  let space := pipeBufferBytes - queue.length
  let sent (bytes : List UInt8) : UnixPair := pair.setIncoming (!endB) (queue ++ bytes.map (Prod.mk serial))
  if pair.used = false ∨ pair.endOpen (!endB) = false then (.done (.error 32), pair)
  else if source = [] then (.done (.ok 0), pair)
  else if pair.message then
    if maxMessage < source.length then (.done (.error 90), pair)
    else if 2 + source.length ≤ space then (.done (.ok source.length), sent (header source.length ++ source))
    else (.again, pair)
  else if 0 < space ∧ (pipeAtomicBytes < source.length ∨ source.length ≤ space) then
    (.done (.ok (min space source.length)), sent (source.take space))
  else (.again, pair)

end UnixPair

namespace Objects

def makePair (o : Objects) (message : Bool) : Option (Nat × Objects) :=
  match position unixPairCount fun i => !(o.pairs i).used with
  | none => none
  | some slot =>
    let pair : UnixPair := { used := true, message, endAOpen := true, endBOpen := true, serial := o.nextSerial }
    some (slot, { o with pairs := Function.update o.pairs slot pair, nextSerial := o.nextSerial + 1 })

def clearPair (o : Objects) (slot : Nat) : Objects := { o with pairs := Function.update o.pairs slot {} }

def setPair (o : Objects) (slot : Nat) (pair : UnixPair) : Objects :=
  { o with pairs := Function.update o.pairs slot pair }

def setListener (o : Objects) (slot : Nat) (listener : UnixListener) : Objects :=
  { o with listeners := Function.update o.listeners slot listener }

end Objects

namespace Kernel

def withObjects (k : Kernel) (objects : Objects) : Kernel := { k with objects }

def unixFd (handle serial : Nat) (endB closeOnExec nonblocking : Bool) : ProcessFd :=
  { handle, unixSocket := true, unixEndB := endB, readable := true, writable := true, closeOnExec, nonblocking, serial }

def installUnixSocketFd (k : Kernel) (limit handle serial : Nat) (endB closeOnExec nonblocking : Bool) :
    Option (Nat × Kernel) :=
  k.installProcessFd limit (unixFd handle serial endB closeOnExec nonblocking)

def linuxSocketpair (k : Kernel) (limit : Nat) (message closeOnExec nonblocking copied : Bool) : Int × Kernel :=
  match k.objects.makePair message with
  | none => (-24, k)
  | some (slot, objects) =>
    let serial := k.objects.nextSerial
    let k := k.withObjects objects
    match k.installUnixSocketFd limit slot serial false closeOnExec nonblocking with
    | none => (-24, k.withObjects (k.objects.clearPair slot))
    | some (fdA, k) =>
      match k.installUnixSocketFd limit slot serial true closeOnExec nonblocking with
      | none => (-24, (k.linuxClose fdA).2)
      | some (fdB, k) => if copied then (0, k) else (-14, ((k.linuxClose fdA).2.linuxClose fdB).2)

def linuxSocket (k : Kernel) (limit : Nat) (message closeOnExec nonblocking : Bool) : Int × Kernel :=
  let handle := if message then unixUnboundMessage else unixUnbound
  match k.installUnixSocketFd limit handle 0 false closeOnExec nonblocking with
  | none => (-24, k)
  | some (descriptor, k) => (descriptor, k)

def unboundSocket (fd : ProcessFd) : Bool := fd.isOpen && fd.unixSocket && unixUnboundHandle fd.handle

def unixBind (k : Kernel) (descriptor : Nat) (name : List UInt8) : Int × Kernel :=
  if processFdCount ≤ descriptor then (-9, k)
  else
    let fd := k.fds descriptor
    if !unboundSocket fd then (-88, k)
    else if (List.range unixListenerCount).any fun i => (k.objects.listeners i).used && (k.objects.listeners i).name == name then
      (-98, k)
    else match position unixListenerCount fun i => !(k.objects.listeners i).used with
      | none => (-24, k)
      | some slot =>
        let listener : UnixListener := { used := true, message := fd.handle == unixUnboundMessage, name }
        let fd := { fd with unixSocket := false, unixListener := true, handle := slot, readable := false, writable := false }
        (0, (k.withObjects (k.objects.setListener slot listener)).setFd descriptor fd)

def unixListen (k : Kernel) (descriptor : Nat) : Int × Kernel :=
  if processFdCount ≤ descriptor then (-9, k)
  else
    let fd := k.fds descriptor
    if !(fd.isOpen && fd.unixListener) then (-88, k)
    else if fd.handle < unixListenerCount ∧ (k.objects.listeners fd.handle).used = true then
      let listener := { k.objects.listeners fd.handle with listening := true }
      (0, k.withObjects (k.objects.setListener fd.handle listener))
    else (-9, k)

def enqueue (listener : UnixListener) (slot : Nat) : Option UnixListener :=
  if listener.used && listener.listening then
    match listener.backlog.findIdx? (· == none) with
    | none => none
    | some index => some { listener with backlog := listener.backlog.set index (some slot) }
  else none

def unixAcceptApply (listener : UnixListener) : Option (Nat × UnixListener) :=
  if !listener.used || !listener.listening then none
  else match listener.backlog.findIdx? (· != none) with
    | none => none
    | some index => (listener.backlog.getD index none).map fun slot =>
      (slot, { listener with backlog := listener.backlog.set index none })

def unixConnect (k : Kernel) (descriptor : Nat) (name : List UInt8) : Int × Kernel :=
  if processFdCount ≤ descriptor then (-9, k)
  else
    let fd := k.fds descriptor
    if !unboundSocket fd then (-88, k)
    else
      let message := fd.handle == unixUnboundMessage
      match position unixListenerCount fun i =>
          (k.objects.listeners i).used && (k.objects.listeners i).listening &&
            (k.objects.listeners i).message == message && (k.objects.listeners i).name == name with
      | none => (-111, k)
      | some slot =>
        match k.objects.makePair message with
        | none => (-24, k)
        | some (pair, objects) =>
          match enqueue (objects.listeners slot) pair with
          | none => (-111, k.withObjects (objects.clearPair pair))
          | some listener =>
            let fd := { fd with unixEndB := false, handle := pair, readable := true, writable := true, serial := k.objects.nextSerial }
            (0, (k.withObjects (objects.setListener slot listener)).setFd descriptor fd)

def unixAccept (k : Kernel) (handle limit : Nat) (closeOnExec : Bool) : Int × Kernel :=
  if unixListenerCount ≤ handle then (-11, k)
  else match unixAcceptApply (k.objects.listeners handle) with
    | none => (-11, k)
    | some (pair, listener) =>
      let serial := (k.objects.pairs pair).serial
      let k := k.withObjects (k.objects.setListener handle listener)
      match k.installUnixSocketFd limit pair serial true closeOnExec false with
      | none => (-24, k.withObjects (k.objects.clearPair pair))
      | some (descriptor, k) => (descriptor, k)

def linuxAccept (k : Kernel) (descriptor limit : Nat) (closeOnExec : Bool) : Int × Kernel :=
  match k.lookupProcessFd descriptor with
  | none => (-9, k)
  | some fd => if !fd.unixListener then (-88, k) else k.unixAccept fd.handle limit closeOnExec

def unixRead (k : Kernel) (fd : ProcessFd) (room : Nat) : Turn (List (Nat × UInt8)) × Kernel :=
  if fd.handle < unixPairCount then
    let (turn, pair) := (k.objects.pairs fd.handle).take fd.unixEndB room
    (turn, k.withObjects (k.objects.setPair fd.handle pair))
  else (.done (.error 9), k)

def unixWrite (k : Kernel) (fd : ProcessFd) (source : List UInt8) : Turn Nat × Kernel :=
  if fd.handle < unixPairCount then
    let (turn, pair) := (k.objects.pairs fd.handle).put fd.unixEndB fd.serial source
    (turn, k.withObjects (k.objects.setPair fd.handle pair))
  else (.done (.error 9), k)

end Kernel
end AerOS.Descriptors
