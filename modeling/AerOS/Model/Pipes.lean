import AerOS.Model.Descriptors

/-!
# Reading and writing pipes (`pipe_read` and `pipe_write` of `kernel/src/syscall.rs`)

One attempt under the lock of the table. A call that has to wait gives up the processor between two
attempts. Pipes that stand for an event counter, a timer, a signal mask or a process are left out.
-/

namespace AerOS.Descriptors
open AerOS.Ring

def pipeAtomicBytes : Nat := 4096

inductive Turn (α : Type)
  | done (result : Except Nat α)
  | again
deriving DecidableEq

def lineFeed : UInt8 := 10

def Pipe.wanted (pipe : Pipe) (ring : Data) (room : Nat) : Nat :=
  if pipe.canonical then
    match (List.range (min pipe.length room)).find? fun offset =>
        ringPeek pipeBufferBytes ring pipe.head pipe.length offset 1 == [lineFeed] with
    | some last => last + 1
    | none => room
  else room

def pipeRead (pipe : Pipe) (ring : Data) (room : Nat) : Turn (List UInt8) × Pipe :=
  if pipe.used = false then (.done (.error 9), pipe)
  else if 0 < pipe.length then
    let (taken, head, length) := ringTake pipeBufferBytes ring pipe.head pipe.length (pipe.wanted ring room)
    (.done (.ok taken), { pipe with head, length })
  else if 0 < pipe.eofPending then (.done (.ok []), { pipe with eofPending := pipe.eofPending - 1 })
  else if !pipe.writeOpen || pipe.nowait then (.done (.ok []), pipe)
  else (.again, pipe)

def ringPutCrlf (size : Nat) (data : Data) (head length : Nat) : List UInt8 → Nat × Data × Nat
  | [] => (0, data, length)
  | byte :: rest =>
    let bytes := if byte = lineFeed then [13, lineFeed] else [byte]
    if size - length < bytes.length then (0, data, length)
    else
      let (_, data, length) := ringPut size data head length bytes
      let (count, data, length) := ringPutCrlf size data head length rest
      (count + 1, data, length)

def pipeWrite (pipe : Pipe) (ring : Data) (source : List UInt8) : Turn Nat × Pipe × Data :=
  if pipe.used = false ∨ pipe.readOpen = false then (.done (.error 32), pipe, ring)
  else if source = [] then (.done (.ok 0), pipe, ring)
  else
    let space := pipeBufferBytes - pipe.length
    let needed := if pipe.onlcr then source.length + source.count lineFeed else source.length
    if 1 < space ∧ (pipeAtomicBytes < source.length ∨ needed ≤ space) then
      let (count, ring, length) :=
        if pipe.onlcr then ringPutCrlf pipeBufferBytes ring pipe.head pipe.length source
        else ringPut pipeBufferBytes ring pipe.head pipe.length source
      (.done (.ok count), { pipe with length }, ring)
    else (.again, pipe, ring)

end AerOS.Descriptors
