import AerOS.Spec.Seccomp

namespace AerOS.Proof.Seccomp
open AerOS.Seccomp

variable {i : Instruction} {program : List Instruction} {m : Machine} {length pc : Nat}
variable {k value : UInt32} {m' : Machine}

theorem accepted_of_validate (h : validate program = true) : Accepted program := by
  unfold validate at h
  split at h
  · cases h
  rename_i size
  split at h
  · rename_i every
    refine ⟨by simp at size; exact size.2, ?_, ?_⟩
    · intro pc i found
      exact List.all_eq_true.mp every (i, pc) (by simpa [List.mem_zipIdx_iff_getElem?] using found)
    cases final : program.getLast? with
    | none => simp [final] at h
    | some i => exact ⟨i, rfl, by simpa [final] using h⟩
  · cases h

theorem new_eq_some (h : validate program = true) :
    ∃ filter, Filter.new program = some filter ∧ filter.program = .ok program := by
  have accepted := accepted_of_validate h
  refine ⟨_, if_pos h, ?_⟩
  simp only [Filter.program, accepted.bounded, if_true]
  congr 1
  apply List.ext_getElem?
  intro at_
  by_cases inside : at_ < program.length
  · have small : at_ < maxInstructions := inside.trans_le accepted.bounded
    simp [inside, small]
  · simp [inside]

theorem wordAt_ok (data : Record) {at_ : Nat} (inside : at_ + 3 < dataBytes) :
    ∃ word, wordAt data at_ = .ok word := by
  have byte (i : Nat) (hi : i < dataBytes) : ∃ b, byteAt data i = .ok b := by
    refine ⟨data[i], ?_⟩
    simp [byteAt, hi]
  obtain ⟨b0, h0⟩ := byte at_ (by omega)
  obtain ⟨b1, h1⟩ := byte (at_ + 1) (by omega)
  obtain ⟨b2, h2⟩ := byte (at_ + 2) (by omega)
  obtain ⟨b3, h3⟩ := byte (at_ + 3) (by omega)
  exact ⟨_, by simp only [wordAt, h0, h1, h2, h3]; rfl⟩

theorem memoryAt_ok (memory : Vector UInt32 memoryWords) (inside : k.toNat < memoryWords) :
    ∃ word, memoryAt memory k = .ok word :=
  ⟨memory[k.toNat], by simp [memoryAt, inside]⟩

theorem word_inside (aligned : k % 4 = 0) (inside : k.toNat < dataBytes) : k.toNat + 3 < dataBytes := by
  have whole : k.toNat % 4 = 0 := by
    have := congrArg UInt32.toNat aligned
    simpa using this
  unfold dataBytes at *
  omega

theorem plainLoad_ok (valid : (if i.mode = modeImm ∨ i.mode = modeLen then true
    else if i.mode = modeMem then decide (i.k.toNat < memoryWords) else false) = true) (m : Machine) :
    ∃ value, loadIndexValue m i = .ok value := by
  unfold loadIndexValue
  split at valid
  · rename_i plain
    rcases plain with plain | plain
    · exact ⟨_, if_pos plain⟩
    · exact ⟨_, by rw [if_neg (by rw [plain]; decide), if_pos plain]⟩
  rename_i plain
  rw [not_or] at plain
  rw [if_neg plain.1, if_neg plain.2]
  split at valid
  · exact memoryAt_ok _ (by simpa using valid)
  · cases valid

theorem loadValue_ok (valid : validAt length pc i = true)
    (isLoad : i.class_ = classLd) (data : Record) (m : Machine) : ∃ value, loadValue data m i = .ok value := by
  simp only [validAt, isLoad, if_true] at valid
  unfold loadValue
  split at valid
  · rename_i absolute
    simp only [Bool.and_eq_true, beq_iff_eq, decide_eq_true_eq] at valid
    rw [if_pos absolute]
    exact wordAt_ok data (word_inside valid.1.2 valid.2)
  rename_i other
  rw [if_neg other]
  exact plainLoad_ok valid m

theorem loadIndexValue_ok (valid : validAt length pc i = true)
    (isLoad : i.class_ = classLdx) (m : Machine) : ∃ value, loadIndexValue m i = .ok value := by
  simp only [validAt, isLoad, if_true, show classLdx ≠ classLd by decide, if_false] at valid
  exact plainLoad_ok valid m

inductive Moves (length : Nat) (m : Machine) (i : Instruction) : Outcome → Prop
  | next (m' : Machine) (forward : m.pc < m'.pc) (inside : m'.pc < length) : Moves length m i (.next m')
  | returned (value : UInt32) (ends : ReturnsAt i m value ∨ ZeroDivisorAt i m value) :
      Moves length m i (.returned value)

theorem Moves.straight (pc : m'.pc = m.pc + 1) (room : m.pc + 1 < length) : Moves length m i (.next m') :=
  .next m' (by omega) (by omega)

theorem jumpOffset_lt (valid : validAt length pc i = true)
    (isJump : i.class_ = classJmp) (m : Machine) : jumpOffset m i < length - pc - 1 := by
  simp only [validAt, isJump, if_true, show classJmp ≠ classLd by decide, show classJmp ≠ classLdx by decide,
    show classJmp ≠ classAlu by decide, show ¬(classJmp = classSt ∨ classJmp = classStx) by decide,
    if_false] at valid
  simp only [jumpOffset]
  split at valid
  · rename_i always
    rw [if_pos always]
    exact of_decide_eq_true valid
  rename_i conditional
  split at valid
  · simp only [Bool.and_eq_true, decide_eq_true_eq] at valid
    -- whichever test decides, the target is `jt` or `jf`
    split_ifs <;> first | exact valid.1 | exact valid.2
  · cases valid

theorem aluValue_cases (valid : validAt length pc i = true) (isAlu : i.class_ = classAlu) (m : Machine) :
    (∃ value, aluValue m i = .ok (some value)) ∨
      aluValue m i = .ok none ∧ (i.operation = 0x30 ∨ i.operation = 0x90) ∧ i.useX = true ∧
        m.indexRegister = 0 := by
  simp only [validAt, isAlu, if_true, show classAlu ≠ classLd by decide, show classAlu ≠ classLdx by decide,
    show ¬(classAlu = classSt ∨ classAlu = classStx) by decide, if_false, decide_eq_true_eq] at valid
  have divisor (f : UInt32 → UInt32 → UInt32) (divides : i.operation = 0x30 ∨ i.operation = 0x90)
      (h : aluValue m i = checked f m.accumulator (operandOf m i)) :
      (∃ value, aluValue m i = .ok (some value)) ∨
        aluValue m i = .ok none ∧ (i.operation = 0x30 ∨ i.operation = 0x90) ∧ i.useX = true ∧
          m.indexRegister = 0 := by
    rw [h, checked, divide]
    by_cases zero : operandOf m i = 0
    · right
      rw [if_pos zero]
      refine ⟨rfl, divides, ?_⟩
      unfold operandOf at zero
      split at zero
      · rename_i source
        exact ⟨source, zero⟩
      rename_i source
      exact absurd ⟨by simpa [Instruction.useX] using source, divides, zero⟩ valid.2
    · exact .inl ⟨_, by rw [if_neg zero, if_neg zero]; rfl⟩
  by_cases div : i.operation = 0x30
  · exact divisor (· / ·) (.inl div) (by simp [aluValue, div])
  by_cases rem : i.operation = 0x90
  · exact divisor (· % ·) (.inr rem) (by simp [aluValue, rem])
  left
  simp only [aluValue, div, rem, if_false]
  split_ifs <;> exact ⟨_, rfl⟩

theorem storeAt_ok (memory : Vector UInt32 memoryWords) (inside : k.toNat < memoryWords)
    (word : UInt32) : storeAt memory k word = .ok (memory.setIfInBounds k.toNat word) :=
  if_pos inside

theorem execute_moves (valid : validAt length m.pc i = true)
    (room : i.class_ ≠ classRet → m.pc + 1 < length) (data : Record) :
    ∃ outcome, execute data { m with pc := m.pc + 1 } i = .ok outcome ∧ Moves length m i outcome := by
  unfold execute
  by_cases ld : i.class_ = classLd
  · obtain ⟨value, loaded⟩ := loadValue_ok valid ld data { m with pc := m.pc + 1 }
    refine ⟨_, by rw [if_pos ld, loaded]; rfl, .straight rfl (room ?_)⟩
    rw [ld]; decide
  rw [if_neg ld]
  by_cases ldx : i.class_ = classLdx
  · obtain ⟨value, loaded⟩ := loadIndexValue_ok valid ldx { m with pc := m.pc + 1 }
    refine ⟨_, by rw [if_pos ldx, loaded]; rfl, .straight rfl (room ?_)⟩
    rw [ldx]; decide
  rw [if_neg ldx]
  have stores (h : i.class_ = classSt ∨ i.class_ = classStx) : i.k.toNat < memoryWords := by
    simpa [validAt, ld, ldx, h] using valid
  by_cases st : i.class_ = classSt
  · refine ⟨_, by rw [if_pos st, storeAt_ok _ (stores (.inl st))]; rfl, .straight rfl (room ?_)⟩
    rw [st]; decide
  rw [if_neg st]
  by_cases stx : i.class_ = classStx
  · refine ⟨_, by rw [if_pos stx, storeAt_ok _ (stores (.inr stx))]; rfl, .straight rfl (room ?_)⟩
    rw [stx]; decide
  rw [if_neg stx]
  by_cases alu : i.class_ = classAlu
  · rw [if_pos alu]
    rcases aluValue_cases valid alu { m with pc := m.pc + 1 } with ⟨value, computed⟩ | ⟨none, divides, source, zero⟩
    · refine ⟨_, by rw [computed]; rfl, .straight rfl (room ?_)⟩
      rw [alu]; decide
    · exact ⟨_, by rw [none]; rfl, .returned _ (.inr ⟨alu, divides, source, zero, rfl⟩)⟩
  rw [if_neg alu]
  by_cases jmp : i.class_ = classJmp
  · have offset := jumpOffset_lt valid jmp { m with pc := m.pc + 1 }
    refine ⟨_, by rw [if_pos jmp]; rfl, .next _ ?_ ?_⟩
    · show m.pc < m.pc + 1 + _
      omega
    show m.pc + 1 + _ < length
    omega
  rw [if_neg jmp]
  by_cases ret : i.class_ = classRet
  · exact ⟨_, by rw [if_pos ret]; rfl, .returned _ (.inl ⟨ret, rfl⟩)⟩
  split_ifs <;> exact ⟨_, rfl, .straight rfl (room ret)⟩

theorem next_inside (accepted : Accepted program)
    (found : program[pc]? = some i) (h : i.class_ ≠ classRet) : pc + 1 < program.length := by
  obtain ⟨_, isLast, ret⟩ := accepted.last
  have inside := (List.getElem?_eq_some_iff.mp found).1
  by_contra past
  have same : pc = program.length - 1 := by omega
  rw [List.getLast?_eq_getElem?, ← same, found] at isLast
  obtain rfl := Option.some.inj isLast
  exact h ret

theorem step_moves (accepted : Accepted program) (found : program[m.pc]? = some i) (data : Record) :
    ∃ outcome, step program data m = .ok outcome ∧ Moves program.length m i outcome := by
  unfold step
  rw [found]
  exact execute_moves (accepted.valid m.pc i found) (next_inside accepted found) data

def EndsWith (program : List Instruction) (data : Record) (m : Machine) (value : UInt32) : Prop :=
  ∃ n last i, n + m.pc < program.length ∧ Steps program data n m last ∧ program[last.pc]? = some i ∧
    step program data last = .ok (.returned value) ∧ (ReturnsAt i last value ∨ ZeroDivisorAt i last value)

theorem EndsWith.cons {data : Record} (first : step program data m = .ok (.next m')) (forward : m.pc < m'.pc)
    (rest : EndsWith program data m' value) : EndsWith program data m value := by
  obtain ⟨n, last, i, _, steps, found, returns, ends⟩ := rest
  exact ⟨n + 1, last, i, by omega, .more first steps, found, returns, ends⟩

theorem runLoop_ends (accepted : Accepted program) (data : Record) (turns : Nat)
    (m : Machine) (inside : m.pc < program.length) (enough : program.length ≤ turns + m.pc) :
    ∃ value, runLoop program data turns m = .ok value ∧ EndsWith program data m value := by
  induction turns generalizing m with
  | zero => omega
  | succ turns ih =>
    have found := List.getElem?_eq_getElem inside
    obtain ⟨_, stepped, moves⟩ := step_moves accepted found data
    rw [runLoop, if_pos inside]
    simp only [stepped]
    cases moves with
    | next m' forward inside' =>
      obtain ⟨value, result, ends⟩ := ih m' inside' (by omega)
      exact ⟨value, result, ends.cons stepped forward⟩
    | returned value ends =>
      exact ⟨value, rfl, 0, m, _, by omega, .none m, found, stepped, ends⟩

theorem run_of_validate (program : List Instruction) (data : Record) (accepted : validate program = true) :
    ∃ filter value n last i, Filter.new program = some filter ∧ run filter data = .ok value ∧
      n + 1 ≤ program.length ∧ Steps program data n .start last ∧ program[last.pc]? = some i ∧
      step program data last = .ok (.returned value) ∧
      (ReturnsAt i last value ∨ ZeroDivisorAt i last value) := by
  have sound := accepted_of_validate accepted
  obtain ⟨filter, made, slice⟩ := new_eq_some accepted
  have inside : Machine.start.pc < program.length := by
    obtain ⟨_, isLast, -⟩ := sound.last
    exact List.length_pos_of_ne_nil (by rintro rfl; cases isLast)
  obtain ⟨value, result, n, last, i, _, steps, found, returns, ends⟩ :=
    runLoop_ends sound data program.length .start inside (by omega)
  refine ⟨filter, value, n, last, i, made, ?_, by omega, steps, found, returns, ends⟩
  unfold run
  rw [slice]
  exact result

def denyGetpid : List Instruction :=
  [⟨0x20, 0, 0, 0⟩, ⟨0x15, 0, 1, 39⟩, ⟨0x06, 0, 0, 0x00050001⟩, ⟨0x06, 0, 0, 0x7fff0000⟩]

theorem denyGetpid_run : validate denyGetpid = true ∧ ∃ filter value, Filter.new denyGetpid = some filter ∧
        run filter (Vector.replicate dataBytes 0) = .ok value := by
  have accepted : validate denyGetpid = true := by decide
  obtain ⟨filter, value, -, -, -, made, result, -⟩ :=
    run_of_validate denyGetpid (Vector.replicate dataBytes 0) accepted
  exact ⟨accepted, filter, value, made, result⟩

end AerOS.Proof.Seccomp
