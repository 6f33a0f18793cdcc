import AerOS.Model.Seccomp

namespace AerOS.Seccomp

section
variable (program : List Instruction) (data : Record)

inductive Steps : Nat → Machine → Machine → Prop
  | none (m : Machine) : Steps 0 m m
  | more {n : Nat} {m m' last : Machine} (first : step program data m = .ok (.next m'))
      (rest : Steps n m' last) : Steps (n + 1) m last

end

def ReturnsAt (i : Instruction) (m : Machine) (value : UInt32) : Prop :=
  i.class_ = classRet ∧ value = if i.size = 0x10 then m.accumulator else i.k

/-- The instruction divides by the index register, which is zero, and the filter kills the process. -/
structure ZeroDivisorAt (i : Instruction) (m : Machine) (value : UInt32) : Prop where
  alu : i.class_ = classAlu
  divides : i.operation = 0x30 ∨ i.operation = 0x90
  source : i.useX = true
  divisor : m.indexRegister = 0
  kills : value = retKillProcess

structure Accepted (program : List Instruction) : Prop where
  bounded : program.length ≤ maxInstructions
  valid : ∀ pc i, program[pc]? = some i → validAt program.length pc i = true
  last : ∃ i, program.getLast? = some i ∧ i.class_ = classRet

end AerOS.Seccomp
