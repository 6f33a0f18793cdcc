import AerOS.Model.Pipes

/-!
# Reads and writes that move many bytes (`read_from`, `write_to` and `unix_socket_take`, `unix_socket_write`
of `kernel/src/syscall.rs`)

A call moves its bytes in chunks, one attempt under the lock of the table at a time. The user's buffer is checked
when the call begins; it may be gone when a read that has waited copies to it (`copied`), and what was taken is lost.
-/

namespace AerOS.Streams
open AerOS.Ring AerOS.Descriptors

def ioChunk : Nat := 4096
def maxIo : Nat := 64 * 1024
def maxMessage : Nat := 4000

structure Direction where
  used : Bool := true
  message : Bool := false
  writerOpen : Bool := true
  readerOpen : Bool := true
  head : Nat := 0
  length : Nat := 0
  ring : Data := fun _ => 0

def header (size : Nat) : List UInt8 := [UInt8.ofNat (size % 256), UInt8.ofNat (size / 256 % 256)]

def headerSize (bytes : List UInt8) : Nat := (bytes.getD 0 0).toNat + 256 * (bytes.getD 1 0).toNat

def unixSocketTake (d : Direction) (room : Nat) : Turn (List UInt8) × Direction :=
  if d.used = false then (.done (.error 9), d)
  else if 0 < d.length then
    if d.message then
      let size := headerSize (ringPeek pipeBufferBytes d.ring d.head d.length 0 2)
      let count := min size room
      let bytes := ringPeek pipeBufferBytes d.ring d.head d.length 2 count
      let taken := min (2 + size) d.length
      (.done (.ok bytes), { d with head := (d.head + taken) % pipeBufferBytes, length := d.length - taken })
    else
      let (taken, head, length) := ringTake pipeBufferBytes d.ring d.head d.length room
      (.done (.ok taken), { d with head, length })
  else if d.writerOpen = false then (.done (.ok []), d)
  else (.again, d)

def unixSocketWrite (d : Direction) (source : List UInt8) : Turn Nat × Direction :=
  if d.used = false ∨ d.readerOpen = false then (.done (.error 32), d)
  else if source = [] then (.done (.ok 0), d)
  else
    let space := pipeBufferBytes - d.length
    if d.message then
      if maxMessage < source.length then (.done (.error 90), d)
      else if 2 + source.length ≤ space then
        let (_, ring, length) := ringPut pipeBufferBytes d.ring d.head d.length (header source.length)
        let (_, ring, length) := ringPut pipeBufferBytes ring d.head length source
        (.done (.ok source.length), { d with ring, length })
      else (.again, d)
    else if 0 < space ∧ (pipeAtomicBytes < source.length ∨ source.length ≤ space) then
      let (count, ring, length) := ringPut pipeBufferBytes d.ring d.head d.length source
      (.done (.ok count), { d with ring, length })
    else (.again, d)

/-- What one attempt takes and puts, and the closing of one end while the other is open. -/
structure Medium (σ : Type) where
  take : σ → Nat → Turn (List UInt8) × σ
  put : σ → List UInt8 → Turn Nat × σ
  shut : σ → Bool → σ

def pipeMedium : Medium (Pipe × Data) where
  take s room := let (turn, pipe) := pipeRead s.1 s.2 room; (turn, pipe, s.2)
  put s source := pipeWrite s.1 s.2 source
  shut s reader :=
    if reader && s.1.writeOpen then ({ s.1 with readOpen := false }, s.2)
    else if !reader && s.1.readOpen then ({ s.1 with writeOpen := false }, s.2)
    else s

def unixMedium : Medium Direction where
  take := unixSocketTake
  put := unixSocketWrite
  shut d reader :=
    if reader && d.writerOpen then { d with readerOpen := false }
    else if !reader && d.readerOpen then { d with writerOpen := false }
    else d

inductive Request
  | read (requested : Nat)
  | write (source : List UInt8) (nonblocking : Bool)

/-- A call: the bytes that it has moved, the end of the chunk that a write is at, and its answer. -/
structure Call where
  request : Request
  moved : List UInt8 := []
  chunkEnd : Nat := 0
  result : Option (Except Nat Nat) := none

namespace Call

def begin : Request → Call
  | .read requested =>
    { request := .read requested, result := if min requested maxIo = 0 then some (.ok 0) else none }
  | .write source nonblocking =>
    let amount := min source.length maxIo
    { request := .write source nonblocking, chunkEnd := min amount ioChunk, result := if amount = 0 then some (.ok 0) else none }

def fail (c : Call) (failure : Nat) : Call :=
  { c with result := some (if c.moved = [] then .error failure else .ok c.moved.length) }

def finish (c : Call) : Call := { c with result := some (.ok c.moved.length) }

def part (c : Call) (source : List UInt8) : List UInt8 := (source.take c.chunkEnd).drop c.moved.length

def afterRead (c : Call) (requested amount : Nat) : Turn (List UInt8) → Call
  | .again => c
  | .done (.error failure) => c.fail failure
  | .done (.ok bytes) =>
    let c := { c with moved := c.moved ++ bytes }
    if bytes.length < amount ∨ requested ≤ c.moved.length then c.finish else c

/-- What a read makes of the turn when its buffer may be gone. -/
def deliver (copied : Bool) : Turn (List UInt8) → Turn (List UInt8)
  | .done (.ok bytes) => if copied || bytes.isEmpty then .done (.ok bytes) else .done (.error 14)
  | turn => turn

def afterWrite (c : Call) (source : List UInt8) (nonblocking : Bool) : Turn Nat → Call
  | .again => c
  | .done (.error failure) => c.fail failure
  | .done (.ok 0) => c.finish
  | .done (.ok (count + 1)) =>
    let c := { c with moved := c.moved ++ (c.part source).take (count + 1) }
    let amount := min source.length maxIo
    if c.moved.length < c.chunkEnd then
      if nonblocking then c.finish else c
    else if c.moved.length < amount then { c with chunkEnd := min (c.moved.length + ioChunk) amount }
    else c.finish

end Call

inductive Event
  | took (call : Nat) (bytes : List UInt8)
  | put (call : Nat) (bytes : List UInt8)

/-- The calls that were made and what they took and put, in the order it took effect. -/
structure State (σ : Type) where
  medium : σ
  calls : List Call := []
  log : List Event := []

inductive Step
  | call (request : Request)
  | attempt (call : Nat) (copied : Bool)
  | giveUp (call failure : Nat)
  | shut (reader : Bool)

namespace State
variable {σ : Type}

def attempt (m : Medium σ) (s : State σ) (i : Nat) (c : Call) (copied : Bool) : State σ :=
  match c.request with
  | .read requested =>
    let requested := min requested maxIo
    let amount := min (requested - c.moved.length) ioChunk
    let (turn, medium) := m.take s.medium amount
    let turn := Call.deliver copied turn
    let log := match turn with
      | .done (.ok bytes) => s.log ++ [.took i bytes]
      | _ => s.log
    { medium, calls := s.calls.set i (c.afterRead requested amount turn), log }
  | .write source nonblocking =>
    let (turn, medium) := m.put s.medium (c.part source)
    let log := match turn with
      | .done (.ok count) => s.log ++ [.put i ((c.part source).take count)]
      | _ => s.log
    { medium, calls := s.calls.set i (c.afterWrite source nonblocking turn), log }

def step (m : Medium σ) (s : State σ) : Step → State σ
  | .call request => { s with calls := s.calls ++ [Call.begin request] }
  | .attempt i copied =>
    match s.calls[i]? with
    | some c => if c.result = none then s.attempt m i c copied else s
    | none => s
  | .giveUp i failure =>
    match s.calls[i]? with
    | some c => if c.result = none then { s with calls := s.calls.set i (c.fail failure) } else s
    | none => s
  | .shut reader => { s with medium := m.shut s.medium reader }

end State

/-- Each attempt of a call on a message pair is made with the same arguments, so a waiting call needs no
state of its own. -/
inductive MessageStep
  | send (source : List UInt8)
  | receive (room : Nat) (copied : Bool)
  | shut (reader : Bool)

structure MessageState where
  direction : Direction
  sent : List (List UInt8) := []
  received : List (Nat × List UInt8) := []

def MessageState.step (s : MessageState) : MessageStep → MessageState
  | .send source =>
    match unixSocketWrite s.direction source with
    | (.done (.ok _), direction) =>
      { s with direction, sent := if source = [] then s.sent else s.sent ++ [source] }
    | (_, direction) => { s with direction }
  | .receive room copied =>
    let room := min room maxMessage
    let (turn, direction) := unixSocketTake s.direction room
    match Call.deliver copied turn with
    | .done (.ok bytes) =>
      { s with direction, received := if 0 < s.direction.length then s.received ++ [(room, bytes)] else s.received }
    | _ => { s with direction }
  | .shut reader => { s with direction := unixMedium.shut s.direction reader }

end AerOS.Streams
