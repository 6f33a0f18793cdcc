import Mathlib.Data.List.Basic

/-!
# Receiving on a TCP connection (`Tcb` of `kernel/src/tcp.rs`)

What `input` does with a segment once the connection is synchronized. The receive ring is its number of bytes, and
`finAcked` is the answer of `process_ack`; the sending side, whose `output` may move the state on, is left out.
-/

namespace AerOS.Tcp

def bufferSize : Nat := 65536

def maxSack : Nat := 4

def seqLt (a b : UInt32) : Bool := decide ((a - b).toInt32 < 0)

def seqLe (a b : UInt32) : Bool := a == b || seqLt a b

inductive State where
  | closed | established | finWait1 | finWait2 | closeWait | closing | lastAck | timeWait
  deriving DecidableEq

structure Tcb where
  state : State
  orphan : Bool
  /-- The listener has not handed the connection out. -/
  waiting : Bool
  rcvNxt : UInt32
  recv : Nat
  peerClosed : Bool
  ooo : List (UInt32 × UInt32)

structure Incoming where
  seq : UInt32
  fin : Bool
  syn : Bool
  rst : Bool
  ack : Bool
  payload : List UInt8

namespace Tcb

def free (tcb : Tcb) : Nat := bufferSize - tcb.recv

def closeConnection (tcb : Tcb) : Tcb :=
  if tcb.orphan || tcb.waiting then ⟨.closed, false, false, 0, 0, false, []⟩ else { tcb with state := .closed }

/-- The range joined with those it meets, and the other ones. -/
def joinRanges : List (UInt32 × UInt32) → UInt32 → UInt32 → (UInt32 × UInt32) × List (UInt32 × UInt32)
  | [], start, stop => ((start, stop), [])
  | (first, last) :: rest, start, stop =>
    if seqLe first stop && seqLe start last then
      joinRanges rest (if seqLt first start then first else start) (if seqLt stop last then last else stop)
    else
      let (range, kept) := joinRanges rest start stop
      (range, (first, last) :: kept)

def noteOutOfOrder (tcb : Tcb) (seq : UInt32) (payload : List UInt8) : Tcb :=
  let fit := min payload.length (tcb.free - (seq - tcb.rcvNxt).toNat)
  if fit = 0 then tcb
  else
    let (range, kept) := joinRanges tcb.ooo seq (seq + UInt32.ofNat fit)
    { tcb with ooo := (range :: kept).take maxSack }

/-- `count` more bytes are in the ring; nobody reads those of an orphan. -/
def advance (tcb : Tcb) (count : Nat) : Tcb :=
  { tcb with
    recv := if tcb.orphan then tcb.recv else tcb.recv + count
    rcvNxt := tcb.rcvNxt + UInt32.ofNat count }

def mergeOutOfOrder : Nat → Tcb → Tcb
  | 0, tcb => tcb
  | turns + 1, tcb =>
    match tcb.ooo.findIdx? fun (start, stop) => seqLe stop tcb.rcvNxt || seqLe start tcb.rcvNxt with
    | none => tcb
    | some index =>
      let stop := (tcb.ooo.getD index (0, 0)).2
      let rest := { tcb with ooo := tcb.ooo.eraseIdx index }
      mergeOutOfOrder turns (if seqLe stop tcb.rcvNxt then rest
        else rest.advance (min (stop - tcb.rcvNxt).toNat tcb.free))

def finish (tcb : Tcb) : Tcb :=
  { tcb with
    rcvNxt := tcb.rcvNxt + 1
    peerClosed := true
    state := match tcb.state with
      | .established => .closeWait
      | .finWait1 => .closing
      | .finWait2 => .timeWait
      | other => other }

def takeInOrder (tcb : Tcb) (payload : List UInt8) (fin : Bool) : Tcb :=
  let taken := min payload.length tcb.free
  let after := tcb.advance taken
  let after := if taken = payload.length ∧ fin = true ∧ tcb.rcvNxt + UInt32.ofNat payload.length = after.rcvNxt
    then after.finish else after
  mergeOutOfOrder after.ooo.length after

def canReceive (tcb : Tcb) : Bool :=
  (tcb.state == .established || tcb.state == .finWait1 || tcb.state == .finWait2) && !tcb.peerClosed

def receive (tcb : Tcb) (segment : Incoming) : Tcb :=
  if (segment.payload.isEmpty && !segment.fin) || !tcb.canReceive then tcb
  else if seqLt segment.seq tcb.rcvNxt then
    tcb.takeInOrder (segment.payload.drop (tcb.rcvNxt - segment.seq).toNat) segment.fin
  else if segment.seq = tcb.rcvNxt then tcb.takeInOrder segment.payload segment.fin
  else if seqLt tcb.rcvNxt segment.seq && !segment.payload.isEmpty then
    tcb.noteOutOfOrder segment.seq segment.payload
  else tcb

def input (tcb : Tcb) (segment : Incoming) (finAcked : Bool) : Tcb :=
  if tcb.state = .closed then tcb
  else if segment.rst then
    if seqLe tcb.rcvNxt segment.seq && seqLt segment.seq (tcb.rcvNxt + UInt32.ofNat (max tcb.free 1)) then
      tcb.closeConnection
    else tcb
  else if segment.syn || !segment.ack then tcb
  else
    match finAcked, tcb.state with
    | true, .finWait1 => { tcb with state := .finWait2 }.receive segment
    | true, .closing => { tcb with state := .timeWait }.receive segment
    | true, .lastAck => tcb.closeConnection
    | _, _ => tcb.receive segment

end Tcb

end AerOS.Tcp
