import AerOS.Lib.Action
import AerOS.Lib.Bytes
import AerOS.Model.X509

/-!
# The TLS record channel (`kernel/src/tls/client.rs`)

A `Session` after `connect`. The key derivation and the cipher are given by `Crypto` and, for opening a record,
by an `Opener`. Of the handshake buffer only the used part is kept.
-/

namespace AerOS.Tls
open Lib Lib.Action

abbrev maxRecord : Nat := 16384

abbrev recordBuffer : Nat := 5 + maxRecord + 256

abbrev handshakeBuffer : Nat := 24 * 1024

abbrev outPlain : Nat := 4096

abbrev tagLen : Nat := 16

abbrev typeChangeCipherSpec : UInt8 := 20
abbrev typeAlert : UInt8 := 21
abbrev typeHandshake : UInt8 := 22
abbrev typeApplication : UInt8 := 23

abbrev hsNewSessionTicket : UInt8 := 4
abbrev hsKeyUpdate : UInt8 := 24

inductive Error where
  | transport
  | protocol
  | decrypt
  | unsupported
  | certificate (error : X509.Error)
  | badSignature
  | badFinished
  | alert (description : UInt8)
  | tooLarge

/-- Why a call ends without a value: an error it returns, an overflow that stops the kernel, or a
loop that has not ended within the fuel. -/
inductive Stop where
  | error (error : Error)
  | panic
  | hang

inductive Suite where
  | aes128Gcm
  | chaCha20Poly1305

def Suite.keyLen : Suite → Nat
  | .aes128Gcm => 16
  | .chaCha20Poly1305 => 32

structure Transport (T : Type) where
  send : List UInt8 → T → Except Error Unit × T
  receive : Nat → T → Except Error (List UInt8) × T
  receive_le : ∀ n t bytes, (receive n t).1 = .ok bytes → bytes.length ≤ n

structure Crypto where
  expandLabel : List UInt8 → String → Nat → List UInt8
  expandLabel_length : ∀ secret label n, (expandLabel secret label n).length = n
  sealRecord : Suite → List UInt8 → List UInt8 → List UInt8 → List UInt8 → List UInt8 × List UInt8

/-- Suite, key, nonce, header, ciphertext and tag to the plaintext, where the tag is right. -/
abbrev Opener : Type :=
  Suite → List UInt8 → List UInt8 → List UInt8 → List UInt8 → List UInt8 → Option (List UInt8)

/-- `generation` counts the key updates behind the keys; the source does not keep it. -/
structure Keys where
  secret : List UInt8
  key : List UInt8
  iv : List UInt8
  sequence : Nat
  active : Bool
  generation : Nat
  deriving DecidableEq

def Keys.fromSecret (crypto : Crypto) (suite : Suite) (secret : List UInt8) (generation : Nat) : Keys where
  secret := secret
  key := crypto.expandLabel secret "key" suite.keyLen
  iv := crypto.expandLabel secret "iv" 12
  sequence := 0
  active := true
  generation := generation

def beBytes (k v : Nat) : List UInt8 := (leBytes k v).reverse

def Keys.nonce (keys : Keys) : List UInt8 :=
  keys.iv.take 4 ++ List.zipWith (fun slot byte => slot ^^^ byte) (keys.iv.drop 4) (beBytes 8 keys.sequence)

def nextKeys (crypto : Crypto) (suite : Suite) (keys : Keys) : Keys :=
  Keys.fromSecret crypto suite (crypto.expandLabel keys.secret "traffic upd" 32) (keys.generation + 1)

structure Session where
  suite : Suite
  read : Keys
  write : Keys
  record : Buffer recordBuffer
  pending : Nat × Nat
  handshake : List UInt8
  closed : Bool

structure World (T : Type) where
  session : Session
  transport : T
  sealed : List (List UInt8 × List UInt8)

abbrev M (T : Type) : Type → Type := Action (World T) Stop

section
variable {T : Type} (net : Transport T) (crypto : Crypto) (opens : Opener)

def fail {α : Type} (error : Error) : M T α := throw (.error error)

def update (f : Session → Session) : M T Unit := modify fun w => { w with session := f w.session }

def receive (n : Nat) : M T (List UInt8) := fun w =>
  match net.receive n w.transport with
  | (.ok bytes, t) => (.ok bytes, { w with transport := t })
  | (.error error, t) => (.error (.error error), { w with transport := t })

def send (data : List UInt8) : M T Unit := fun w =>
  match net.send data w.transport with
  | (.ok _, t) => (.ok (), { w with transport := t })
  | (.error error, t) => (.error (.error error), { w with transport := t })

def readExactFrom : Nat → Nat → Nat → M T Unit
  | _, _, 0 => pure ()
  | 0, _, _ + 1 => pure ()
  | rounds + 1, offset, remaining => do
    let bytes ← receive net remaining
    if bytes.length = 0 then fail .transport
    else do
      update fun s => { s with record := s.record.put offset bytes }
      readExactFrom rounds (offset + bytes.length) (remaining - bytes.length)

def readExact (offset count : Nat) : M T Unit := readExactFrom net count offset count

def bumpRead : M T Unit := do
  let w ← get
  if w.session.read.sequence + 1 = 2 ^ 64 then throw .panic
  else update fun s => { s with read := { s.read with sequence := s.read.sequence + 1 } }

def bumpWrite : M T Unit := do
  let w ← get
  if w.session.write.sequence + 1 = 2 ^ 64 then throw .panic
  else update fun s => { s with write := { s.write with sequence := s.write.sequence + 1 } }

def unpad (record : Buffer recordBuffer) : Nat → Nat
  | 0 => 0
  | stop + 1 => if 5 < stop + 1 ∧ record.byte stop = 0 then unpad record stop else stop + 1

def openRecord (stop : Nat) : M T (UInt8 × Nat × Nat) := do
  let w ← get
  let s := w.session
  let header := s.record.slice 0 5
  let tag := s.record.slice (stop - tagLen) tagLen
  match opens s.suite s.read.key s.read.nonce header (s.record.slice 5 (stop - tagLen - 5)) tag with
  | none => fail .decrypt
  | some plain => do
    update fun s => { s with record := s.record.put 5 plain }
    bumpRead
    let w ← get
    let last := unpad w.session.record (stop - tagLen)
    if last = 5 then fail .protocol
    else pure (w.session.record.byte (last - 1), 5, last - 1)

def acceptRecord (outer : UInt8) (length : Nat) : M T (Option (UInt8 × Nat × Nat)) := do
  let w ← get
  let s := w.session
  if outer = typeChangeCipherSpec then
    if length ≠ 1 ∨ s.record.byte 5 ≠ 1 then fail .protocol else pure none
  else if !s.read.active then
    if length > maxRecord then fail .protocol else pure (some (outer, 5, 5 + length))
  else if outer ≠ typeApplication ∨ length < tagLen + 1 then fail .protocol
  else do
    let opened ← openRecord opens (5 + length)
    pure (some opened)

def readRecord : Nat → M T (UInt8 × Nat × Nat)
  | 0 => throw .hang
  | fuel + 1 => do
    readExact net 0 5
    let w ← get
    let record := w.session.record
    let length := (record.byte 3).toNat * 256 + (record.byte 4).toNat
    if record.byte 1 ≠ 3 ∨ length > maxRecord + 256 then fail .protocol
    else do
      readExact net 5 length
      let accepted ← acceptRecord opens (record.byte 0) length
      match accepted with
      | none => readRecord fuel
      | some opened => pure opened

def lengthBytes (length : Nat) : List UInt8 := [UInt8.ofNat (length / 256), UInt8.ofNat length]

def writeRecord (contentType : UInt8) (data : List UInt8) : M T Unit := do
  if data.length > outPlain then fail .tooLarge
  else do
    let w ← get
    let s := w.session
    if s.write.active then do
      let header := [typeApplication, 3, 3] ++ lengthBytes (data.length + 1 + tagLen)
      let body := crypto.sealRecord s.suite s.write.key s.write.nonce header (data ++ [contentType])
      modify fun w => { w with sealed := w.sealed ++ [(s.write.key, s.write.nonce)] }
      bumpWrite
      send net (header ++ body.1 ++ body.2)
    else send net ([contentType, 3, 3] ++ lengthBytes data.length ++ data)

def writeFrom : Nat → List UInt8 → M T Unit
  | _, [] => pure ()
  | 0, _ :: _ => pure ()
  | rounds + 1, data => do
    writeRecord net crypto typeApplication (data.take outPlain)
    writeFrom rounds (data.drop outPlain)

def write (data : List UInt8) : M T Unit := do
  let w ← get
  if w.session.closed then fail .transport else writeFrom net crypto data.length data

def alertError {α : Type} (start stop : Nat) : M T α := do
  let w ← get
  if stop - start ≥ 2 then fail (.alert (w.session.record.byte (start + 1))) else fail .protocol

def bodyLength (handshake : List UInt8) : Nat :=
  (handshake.getD 1 0).toNat * 65536 + (handshake.getD 2 0).toNat * 256 + (handshake.getD 3 0).toNat

def consumeHandshake (total : Nat) : M T Unit :=
  update fun s => { s with handshake := s.handshake.drop total }

def answerKeyUpdate : M T Unit := do
  writeRecord net crypto typeHandshake [hsKeyUpdate, 0, 0, 1, 0]
  update fun s => { s with write := nextKeys crypto s.suite s.write }

def keyUpdate (total : Nat) : M T Unit := do
  let w ← get
  let flag := w.session.handshake.getD 4 0
  if total ≠ 5 ∨ flag > 1 then fail .protocol
  else do
    update fun s => { s with read := nextKeys crypto s.suite s.read }
    if flag = 1 then answerKeyUpdate net crypto else pure ()

/-- Every message takes four bytes or more, so as many rounds as there are bytes are enough. -/
def postHandshake : Nat → M T Unit
  | 0 => pure ()
  | rounds + 1 => do
    let w ← get
    let handshake := w.session.handshake
    let total := 4 + bodyLength handshake
    if handshake.length < 4 then pure ()
    else if total > handshakeBuffer then fail .tooLarge
    else if handshake.length < total then pure ()
    else if handshake.getD 0 0 = hsNewSessionTicket then do
      consumeHandshake total
      postHandshake rounds
    else if handshake.getD 0 0 = hsKeyUpdate then do
      keyUpdate net crypto total
      consumeHandshake total
      postHandshake rounds
    else fail .protocol

def takeHandshake (start stop : Nat) : M T Unit := do
  let w ← get
  let s := w.session
  if s.handshake.length + (stop - start) > handshakeBuffer then fail .tooLarge
  else do
    update fun s => { s with handshake := s.handshake ++ s.record.slice start (stop - start) }
    postHandshake net crypto (s.handshake.length + (stop - start))

def closeOnTransport {α : Type} : Stop → M T α
  | .error .transport => do
    update fun s => { s with closed := true }
    fail .transport
  | other => throw other

def handleRecord (kind : UInt8) (start stop : Nat) : M T (Option (List UInt8)) := do
  if kind = typeApplication then do
    update fun s => { s with pending := (start, stop) }
    pure none
  else if kind = typeAlert then do
    let w ← get
    if stop - start = 2 ∧ w.session.record.byte (start + 1) = 0 then do
      update fun s => { s with closed := true }
      pure (some [])
    else alertError start stop
  else if kind = typeHandshake then do
    takeHandshake net crypto start stop
    pure none
  else fail .protocol

def read (size : Nat) : Nat → M T (List UInt8)
  | 0 => throw .hang
  | fuel + 1 => do
    let w ← get
    let s := w.session
    if s.pending.1 < s.pending.2 then do
      let count := min size (s.pending.2 - s.pending.1)
      update fun s => { s with pending := (s.pending.1 + count, s.pending.2) }
      pure (s.record.slice s.pending.1 count)
    else if s.closed then pure []
    else do
      let opened ← attempt (readRecord net opens fuel) pure closeOnTransport
      let returned ← handleRecord net crypto opened.1 opened.2.1 opened.2.2
      match returned with
      | some bytes => pure bytes
      | none => read size fuel

def ignoreError : Stop → M T Unit
  | .error _ => pure ()
  | other => throw other

def closeNotify : M T Unit := do
  let w ← get
  if !w.session.closed && w.session.write.active then
    attempt (writeRecord net crypto typeAlert [1, 0]) pure ignoreError
  else pure ()

def close : M T Unit := do
  closeNotify net crypto
  update fun s => { s with closed := true }

end

end AerOS.Tls
