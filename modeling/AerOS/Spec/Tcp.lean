import AerOS.Model.Tcp

/-!
# Where a stream ends
-/

namespace AerOS.Tcp

def finSeq (segment : Incoming) : UInt32 := segment.seq + UInt32.ofNat segment.payload.length

def rcvTaken (tcb : Tcb) (segment : Incoming) : UInt32 :=
  if seqLe segment.seq tcb.rcvNxt then
    tcb.rcvNxt + UInt32.ofNat (min (segment.payload.length - (tcb.rcvNxt - segment.seq).toNat) tcb.free)
  else tcb.rcvNxt

def Receives (state : State) : Prop := state = .established ∨ state = .finWait1 ∨ state = .finWait2

/-- A segment with FIN that ends before `rcv_nxt` comes in on a connection that still receives. -/
structure OldFin (tcb : Tcb) (segment : Incoming) : Prop where
  isOpen : tcb.peerClosed = false
  receives : Receives tcb.state
  plain : segment.rst = false ∧ segment.syn = false ∧ segment.ack = true
  fin : segment.fin = true
  before : seqLt segment.seq tcb.rcvNxt = true
  ended : segment.payload.length < (tcb.rcvNxt - segment.seq).toNat

end AerOS.Tcp
