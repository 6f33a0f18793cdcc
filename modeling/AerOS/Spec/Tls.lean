import AerOS.Model.Tls
import AerOS.Lib.Run

/-!
# The peer, the attacker and the channel between them

The cipher is idealised: an opener accepts only what the peer has sealed.
-/

namespace AerOS.Tls
open Lib

structure Sealing where
  kind : UInt8
  content : List UInt8
  padding : Nat
  header : List UInt8
  cipher : List UInt8
  tag : List UInt8
  deriving DecidableEq

def Sealing.plain (act : Sealing) : List UInt8 :=
  act.content ++ act.kind :: List.replicate act.padding 0

structure Peer where
  keys : Keys
  unfinished : List UInt8
  written : List UInt8
  log : List (Keys × Sealing)

section
variable (crypto : Crypto) (suite : Suite)

/-- Works off the whole messages of the peer's handshake stream. A key update renews the keys; a
message that is neither a ticket nor a key update is not one the peer sends. -/
def settle : Nat → Keys → List UInt8 → Option (Keys × List UInt8)
  | 0, keys, stream => some (keys, stream)
  | rounds + 1, keys, stream =>
    let total := 4 + bodyLength stream
    if stream.length < 4 ∨ stream.length < total then some (keys, stream)
    else if stream.getD 0 0 = hsNewSessionTicket then settle rounds keys (stream.drop total)
    else if stream.getD 0 0 = hsKeyUpdate ∧ total = 5 ∧ stream.getD 4 0 ≤ 1 then
      settle rounds (nextKeys crypto suite keys) (stream.drop total)
    else none

def Keys.bumped (keys : Keys) : Keys := { keys with sequence := keys.sequence + 1 }

def Peer.settled (peer : Peer) (act : Sealing) : Option (Keys × List UInt8) :=
  if act.kind = typeHandshake then
    settle crypto suite (peer.unfinished.length + act.content.length) peer.keys.bumped
      (peer.unfinished ++ act.content)
  else some (peer.keys.bumped, peer.unfinished)

def Peer.send (peer : Peer) (act : Sealing) : Peer :=
  let settled := (peer.settled crypto suite act).getD (peer.keys, peer.unfinished)
  { keys := settled.1
    unfinished := settled.2
    written := if act.kind = typeApplication then peer.written ++ act.content else peer.written
    log := peer.log ++ [(peer.keys, act)] }

structure Honest (peer : Peer) (act : Sealing) : Prop where
  kind_ne : act.kind ≠ 0
  cipher_length : act.cipher.length = act.plain.length
  sequence_lt : peer.keys.sequence + 1 < 2 ^ 64
  settles : (peer.settled crypto suite act).isSome

def Fits (peer : Peer) (act : Sealing) : Prop :=
  act.kind = typeHandshake → peer.unfinished.length + act.content.length ≤ handshakeBuffer

def Ideal (opens : Opener) (log : List (Keys × Sealing)) : Prop :=
  ∀ suite key nonce header cipher tag plain, opens suite key nonce header cipher tag = some plain →
    ∃ entry ∈ log, entry.1.key = key ∧ entry.1.nonce = nonce ∧ entry.2.header = header ∧
      entry.2.cipher = cipher ∧ entry.2.tag = tag ∧ entry.2.plain = plain

def chain (secret : List UInt8) : Nat → Keys
  | 0 => Keys.fromSecret crypto suite secret 0
  | generation + 1 => nextKeys crypto suite (chain secret generation)

/-- No key comes up twice in what the two secrets expand to within so many updates. -/
structure Distinct (client server : List UInt8) (ours theirs : Nat) : Prop where
  client_inj : ∀ i ≤ ours, ∀ j ≤ ours,
    (chain crypto suite client i).key = (chain crypto suite client j).key → i = j
  server_inj : ∀ i ≤ theirs, ∀ j ≤ theirs,
    (chain crypto suite server i).key = (chain crypto suite server j).key → i = j
  apart : ∀ i ≤ ours, ∀ j ≤ theirs,
    (chain crypto suite client i).key ≠ (chain crypto suite server j).key

end

structure System (T : Type) where
  world : World T
  peer : Peer
  returned : List UInt8
  halted : Bool

/-- `tamper` is the attacker between two calls; during a call the transport itself is the attacker. -/
inductive Event (T : Type) where
  | peer (act : Sealing)
  | tamper (change : T → T)
  | read (opens : Opener) (size fuel : Nat)
  | write (data : List UInt8)
  | close

section
variable {T : Type} (net : Transport T) (crypto : Crypto) (suite : Suite)

/-- A call that returns, with a value or an error, leaves its state; a panic or a loop without end
is the end of the run. -/
def System.after {α : Type} (s : System T) (bytes : α → List UInt8) : Except Stop α × World T → System T
  | (.ok value, w) => { s with world := w, returned := s.returned ++ bytes value }
  | (.error (.error _), w) => { s with world := w }
  | (.error _, w) => { s with world := w, halted := true }

def System.step (s : System T) (event : Event T) : System T :=
  if s.halted then s
  else match event with
    | .peer act => { s with peer := s.peer.send crypto suite act }
    | .tamper change => { s with world := { s.world with transport := change s.world.transport } }
    | .read opens size fuel => s.after id (Tls.read net crypto opens size fuel s.world)
    | .write data => s.after (fun _ => []) (Tls.write net crypto data s.world)
    | .close => s.after (fun _ => []) (Tls.close net crypto s.world)

def Possible (s : System T) : Event T → Prop
  | .peer act => Honest crypto suite s.peer act
  | .read opens _ _ => Ideal opens s.peer.log
  | _ => True

def Accepts (t : T) : Prop :=
  ∃ good : T → Prop, good t ∧ (∀ t n, good t → good (net.receive n t).2) ∧
    ∀ t data, good t → (net.send data t).1 = .ok () ∧ good (net.send data t).2

def Undisturbed (s : System T) : Event T → Prop
  | .peer act => Fits s.peer act
  | .read _ _ _ => Accepts net s.world.transport
  | _ => True

/-- As `connect` leaves a session, with a peer that has derived the same keys. -/
structure Connected (client server : List UInt8) (s : System T) : Prop where
  suite_eq : s.world.session.suite = suite
  read_eq : s.world.session.read = Keys.fromSecret crypto suite server 0
  write_eq : s.world.session.write = Keys.fromSecret crypto suite client 0
  pending_eq : s.world.session.pending = (0, 0)
  handshake_eq : s.world.session.handshake = []
  open_eq : s.world.session.closed = false
  sealed_eq : s.world.sealed = []
  peer_eq : s.peer = ⟨Keys.fromSecret crypto suite server 0, [], [], []⟩
  returned_eq : s.returned = []
  running : s.halted = false

/-- Every key and nonce a record of the session, of either side, was sealed with. -/
def System.pairs (s : System T) : List (List UInt8 × List UInt8) :=
  s.world.sealed ++ s.peer.log.map fun entry => (entry.1.key, entry.1.nonce)

/-- The record in the buffer has been opened, under the read keys as they were before it, and holds
content of this kind from `start` up to `stop`. -/
def Opened (opens : Opener) (s : Session) : UInt8 × Nat × Nat → Prop
  | (kind, start, stop) => start = 5 ∧
    ∃ (record : Buffer recordBuffer) (length : Nat) (keys : Keys) (plain : List UInt8),
    opens s.suite keys.key keys.nonce (record.slice 0 5) (record.slice 5 length)
      (record.slice (5 + length) tagLen) = some plain ∧
    s.read = keys.bumped ∧ s.record = record.put 5 plain ∧ unpad s.record (5 + length) - 1 = stop ∧
    s.record.byte stop = kind

def Notified (opens : Opener) (s : Session) : Prop :=
  Opened opens s (typeAlert, 5, 7) ∧ s.record.byte 6 = 0

/-- No read has come back with the error of the transport. -/
def Unbroken (opens : Opener) (s : System T) : Event T → Prop
  | .read opener size fuel => opener = opens ∧ 0 < size ∧
      (Tls.read net crypto opener size fuel s.world).1 ≠ .error (.error .transport)
  | _ => True

end

end AerOS.Tls
