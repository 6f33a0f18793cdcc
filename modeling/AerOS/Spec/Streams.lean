import AerOS.Lib.Run
import AerOS.Model.Streams

/-!
# What a stream of bytes and a queue of messages are for
-/

namespace AerOS.Streams

def Event.piece (i : Nat) : Event → Option (List UInt8)
  | .took call bytes | .put call bytes => if call = i then some bytes else none

def Event.taken : Event → List UInt8
  | .took _ bytes => bytes
  | .put _ _ => []

def Event.entered : Event → List UInt8
  | .took _ _ => []
  | .put _ bytes => bytes

def pieces (log : List Event) (i : Nat) : List (List UInt8) := log.filterMap (Event.piece i)

def taken (log : List Event) : List UInt8 := log.flatMap Event.taken
def entered (log : List Event) : List UInt8 := log.flatMap Event.entered

def newPipe (serial : Nat) : Descriptors.Pipe := { used := true, readOpen := true, writeOpen := true, serial }

/-- No buffer becomes inaccessible while its read is under way. -/
def Step.Copied : Step → Prop
  | .attempt _ copied => copied = true
  | _ => True

def MessageStep.Copied : MessageStep → Prop
  | .receive _ copied => copied = true
  | _ => True

structure StreamIntegrity {σ : Type} (s : State σ) : Prop where
  fifo : taken s.log <+: entered s.log
  /-- A call has moved the bytes of its pieces; a write has put the beginning of its source. -/
  moved : ∀ (i : Nat) c, s.calls[i]? = some c → (pieces s.log i).flatten = c.moved ∧
    ∀ source nonblocking, c.request = .write source nonblocking → c.moved <+: source
  /-- A short write is one piece of the stream, or none. -/
  whole : ∀ (i : Nat) c source nonblocking, s.calls[i]? = some c → c.request = .write source nonblocking →
    source.length ≤ Descriptors.pipeAtomicBytes → pieces s.log i = [] ∨ pieces s.log i = [source]
  /-- The answer is the number of bytes, and an error says that there were none. -/
  answers : ∀ (i : Nat) c result, s.calls[i]? = some c → c.result = some result →
    result = .ok c.moved.length ∨ c.moved = [] ∧ ∃ failure, result = .error failure

/-- Each receive got the next message in sending order, cut to its room. -/
def MessagesInOrder (s : MessageState) : Prop :=
  ∃ whole, whole <+: s.sent ∧ List.Forall₂ (fun message receive => receive.2 = message.take receive.1) whole s.received

end AerOS.Streams
