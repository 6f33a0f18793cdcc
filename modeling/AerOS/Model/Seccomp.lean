import AerOS.Lib.Bytes

/-!
# Seccomp filters (`kernel/src/seccomp.rs`)

Panics of the source are faults here; the loop of `run` is given one turn for each instruction, and running out of
turns is a fault of its own.
-/

namespace AerOS.Seccomp
open Lib

def maxInstructions : Nat := 64

def dataBytes : Nat := 64

def memoryWords : Nat := 16

def retKillProcess : UInt32 := 0x80000000

structure Instruction where
  code : UInt16
  jt : UInt8
  jf : UInt8
  k : UInt32
deriving DecidableEq, Repr

def Instruction.empty : Instruction := ⟨0, 0, 0, 0⟩

def classLd : UInt16 := 0x00
def classLdx : UInt16 := 0x01
def classSt : UInt16 := 0x02
def classStx : UInt16 := 0x03
def classAlu : UInt16 := 0x04
def classJmp : UInt16 := 0x05
def classRet : UInt16 := 0x06
def classMisc : UInt16 := 0x07

def modeImm : UInt16 := 0x00
def modeAbs : UInt16 := 0x20
def modeMem : UInt16 := 0x60
def modeLen : UInt16 := 0x80
def sizeWord : UInt16 := 0x00
def sourceX : UInt16 := 0x08

namespace Instruction

def class_ (i : Instruction) : UInt16 := i.code &&& 0x07

def mode (i : Instruction) : UInt16 := i.code &&& 0xe0

def size (i : Instruction) : UInt16 := i.code &&& 0x18

def operation (i : Instruction) : UInt16 := i.code &&& 0xf0

def useX (i : Instruction) : Bool := i.code &&& sourceX != 0

end Instruction

def validAt (length pc : Nat) (i : Instruction) : Bool :=
  if i.class_ = classLd then
    if i.mode = modeAbs then i.size == sizeWord && i.k % 4 == 0 && decide (i.k.toNat < dataBytes)
    else if i.mode = modeImm ∨ i.mode = modeLen then true
    else if i.mode = modeMem then decide (i.k.toNat < memoryWords)
    else false
  else if i.class_ = classLdx then
    if i.mode = modeImm ∨ i.mode = modeLen then true
    else if i.mode = modeMem then decide (i.k.toNat < memoryWords)
    else false
  else if i.class_ = classSt ∨ i.class_ = classStx then decide (i.k.toNat < memoryWords)
  else if i.class_ = classAlu then
    let known := i.operation ∈ ([0x00, 0x10, 0x20, 0x30, 0x40, 0x50, 0x60, 0x70, 0x80, 0x90, 0xa0] : List UInt16)
    let constantDivisorZero := i.code &&& sourceX = 0 ∧ (i.operation = 0x30 ∨ i.operation = 0x90) ∧ i.k = 0
    decide (known ∧ ¬constantDivisorZero)
  else if i.class_ = classJmp then
    let remaining := length - pc - 1
    if i.operation = 0x00 then decide (i.k.toNat < remaining)
    else if i.operation ∈ ([0x10, 0x20, 0x30, 0x40] : List UInt16) then
      decide (i.jt.toNat < remaining) && decide (i.jf.toNat < remaining)
    else false
  else if i.class_ = classRet then decide (i.size = 0x00 ∨ i.size = 0x10)
  else if i.class_ = classMisc then decide (i.code &&& 0xf8 = 0x00 ∨ i.code &&& 0xf8 = 0x80)
  else false

def validate (program : List Instruction) : Bool :=
  if program.isEmpty || decide (maxInstructions < program.length) then false
  else if program.zipIdx.all fun entry => validAt program.length entry.2 entry.1 then
    match program.getLast? with
    | some last => last.class_ == classRet
    | none => false
  else false

structure Filter where
  length : Nat
  instructions : Vector Instruction maxInstructions

def Filter.new (program : List Instruction) : Option Filter :=
  if validate program then
    some ⟨program.length, Vector.ofFn fun at_ => program.getD at_ .empty⟩
  else none

inductive Fault where
  | slice
  | program
  | data
  | memory
  | division
  | turns
deriving DecidableEq, Repr

abbrev Record := Vector UInt8 dataBytes

structure Machine where
  accumulator : UInt32
  indexRegister : UInt32
  memory : Vector UInt32 memoryWords
  pc : Nat
deriving DecidableEq

def Machine.start : Machine := ⟨0, 0, Vector.replicate memoryWords 0, 0⟩

inductive Outcome where
  | next (machine : Machine)
  | returned (value : UInt32)
deriving DecidableEq

def byteAt (data : Record) (at_ : Nat) : Except Fault UInt8 :=
  match data[at_]? with
  | some byte => .ok byte
  | none => .error .data

def wordAt (data : Record) (at_ : Nat) : Except Fault UInt32 := do
  let b0 ← byteAt data at_
  let b1 ← byteAt data (at_ + 1)
  let b2 ← byteAt data (at_ + 2)
  let b3 ← byteAt data (at_ + 3)
  return UInt32.ofNat (ofLe [b0, b1, b2, b3])

def memoryAt (memory : Vector UInt32 memoryWords) (k : UInt32) : Except Fault UInt32 :=
  match memory[k.toNat]? with
  | some word => .ok word
  | none => .error .memory

def storeAt (memory : Vector UInt32 memoryWords) (k : UInt32) (word : UInt32) :
    Except Fault (Vector UInt32 memoryWords) :=
  if k.toNat < memoryWords then .ok (memory.setIfInBounds k.toNat word) else .error .memory

def divide (f : UInt32 → UInt32 → UInt32) (a b : UInt32) : Except Fault UInt32 :=
  if b = 0 then .error .division else .ok (f a b)

def checked (f : UInt32 → UInt32 → UInt32) (a b : UInt32) : Except Fault (Option UInt32) :=
  if b = 0 then .ok none else (divide f a b).map some

def checkedShl (a b : UInt32) : UInt32 := if b < 32 then a <<< b else 0

def checkedShr (a b : UInt32) : UInt32 := if b < 32 then a >>> b else 0

def loadValue (data : Record) (m : Machine) (i : Instruction) : Except Fault UInt32 :=
  if i.mode = modeAbs then wordAt data i.k.toNat
  else if i.mode = modeImm then .ok i.k
  else if i.mode = modeLen then .ok (UInt32.ofNat dataBytes)
  else memoryAt m.memory i.k

def loadIndexValue (m : Machine) (i : Instruction) : Except Fault UInt32 :=
  if i.mode = modeImm then .ok i.k
  else if i.mode = modeLen then .ok (UInt32.ofNat dataBytes)
  else memoryAt m.memory i.k

def operandOf (m : Machine) (i : Instruction) : UInt32 := if i.useX then m.indexRegister else i.k

def aluValue (m : Machine) (i : Instruction) : Except Fault (Option UInt32) :=
  let operand := operandOf m i
  if i.operation = 0x00 then .ok (some (m.accumulator + operand))
  else if i.operation = 0x10 then .ok (some (m.accumulator - operand))
  else if i.operation = 0x20 then .ok (some (m.accumulator * operand))
  else if i.operation = 0x30 then checked (· / ·) m.accumulator operand
  else if i.operation = 0x40 then .ok (some (m.accumulator ||| operand))
  else if i.operation = 0x50 then .ok (some (m.accumulator &&& operand))
  else if i.operation = 0x60 then .ok (some (checkedShl m.accumulator operand))
  else if i.operation = 0x70 then .ok (some (checkedShr m.accumulator operand))
  else if i.operation = 0x80 then .ok (some (-m.accumulator))
  else if i.operation = 0x90 then checked (· % ·) m.accumulator operand
  else .ok (some (m.accumulator ^^^ operand))

def jumpOffset (m : Machine) (i : Instruction) : Nat :=
  let operand := operandOf m i
  let chosen (taken : Bool) := if taken then i.jt.toNat else i.jf.toNat
  if i.operation = 0x00 then i.k.toNat
  else if i.operation = 0x10 then chosen (m.accumulator == operand)
  else if i.operation = 0x20 then chosen (decide (operand < m.accumulator))
  else if i.operation = 0x30 then chosen (decide (operand ≤ m.accumulator))
  else chosen (m.accumulator &&& operand != 0)

def execute (data : Record) (m : Machine) (i : Instruction) : Except Fault Outcome :=
  if i.class_ = classLd then do
    let value ← loadValue data m i
    return .next { m with accumulator := value }
  else if i.class_ = classLdx then do
    let value ← loadIndexValue m i
    return .next { m with indexRegister := value }
  else if i.class_ = classSt then do
    let memory ← storeAt m.memory i.k m.accumulator
    return .next { m with memory := memory }
  else if i.class_ = classStx then do
    let memory ← storeAt m.memory i.k m.indexRegister
    return .next { m with memory := memory }
  else if i.class_ = classAlu then do
    match ← aluValue m i with
    | some value => return .next { m with accumulator := value }
    | none => return .returned retKillProcess
  else if i.class_ = classJmp then return .next { m with pc := m.pc + jumpOffset m i }
  else if i.class_ = classRet then return .returned (if i.size = 0x10 then m.accumulator else i.k)
  else if i.code &&& 0xf8 = 0x00 then return .next { m with indexRegister := m.accumulator }
  else return .next { m with accumulator := m.indexRegister }

def step (program : List Instruction) (data : Record) (m : Machine) : Except Fault Outcome :=
  match program[m.pc]? with
  | some i => execute data { m with pc := m.pc + 1 } i
  | none => .error .program

def runLoop (program : List Instruction) (data : Record) : Nat → Machine → Except Fault UInt32
  | turns, m =>
    if m.pc < program.length then
      match turns with
      | 0 => .error .turns
      | turns + 1 => do
        match ← step program data m with
        | .next m => runLoop program data turns m
        | .returned value => return value
    else return retKillProcess

def Filter.program (filter : Filter) : Except Fault (List Instruction) :=
  if filter.length ≤ maxInstructions then .ok (filter.instructions.toList.take filter.length)
  else .error .slice

def run (filter : Filter) (data : Record) : Except Fault UInt32 := do
  let program ← filter.program
  runLoop program data program.length .start

end AerOS.Seccomp
