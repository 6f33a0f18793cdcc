import AerOS.Proof.Raid.Exclusive

namespace AerOS.Proof.Raid
open AerOS.Raid

variable {D : Type} {machine machine' : Machine D} {volume : Volume D} {lba lba' offset slot want : Nat}

def memberLength (machine : Machine D) (volume : Volume D) (slot : Nat) : Nat :=
  ((volume.members slot).map machine.usable).getD 0

def memberStart (machine : Machine D) (volume : Volume D) (slot : Nat) : Nat :=
  ((List.range slot).map (memberLength machine volume)).sum

structure Spread (machine : Machine D) (volume : Volume D) : Prop where
  linear : volume.level = .linear → volume.sectors ≤ memberStart machine volume volume.count
  stripe : volume.level = .stripe → 0 < volume.chunk ∧ volume.chunk ∣ volume.perMember ∧
    volume.sectors = volume.perMember * volume.count ∧
    ∀ slot < volume.count, ∃ member, volume.members slot = some member ∧
      volume.perMember ≤ machine.usable member

theorem memberStart_succ (machine : Machine D) (volume : Volume D) (slot : Nat) :
    memberStart machine volume (slot + 1) = memberStart machine volume slot + memberLength machine volume slot := by
  simp [memberStart, List.range_succ]

theorem memberStart_mono {slot slot' : Nat} (le : slot ≤ slot') :
    memberStart machine volume slot ≤ memberStart machine volume slot' := by
  induction slot', le using Nat.le_induction with
  | base => exact le_rfl
  | succ slot' _ _ =>
    rw [memberStart_succ]
    omega

theorem locateLinear_spec (left slot : Nat) (low : memberStart machine volume slot ≤ lba)
    (high : lba < memberStart machine volume (slot + left)) :
    ∃ at', at' < slot + left ∧ memberStart machine volume at' ≤ lba ∧
      lba < memberStart machine volume (at' + 1) ∧
      locateLinear machine volume lba want left slot (memberStart machine volume slot) =
        (at', lba - memberStart machine volume at', min (memberStart machine volume (at' + 1) - lba) want) := by
  induction left generalizing slot with
  | zero =>
    rw [Nat.add_zero] at high
    omega
  | succ left ih =>
    have next := memberStart_succ machine volume slot
    by_cases here : lba < memberStart machine volume slot + memberLength machine volume slot
    · refine ⟨slot, by omega, low, by omega, ?_⟩
      rw [next]
      exact if_pos here
    obtain ⟨at', _, low', high', eq⟩ := ih (slot + 1) (by omega)
      (by rw [show slot + 1 + left = slot + (left + 1) by omega]; exact high)
    refine ⟨at', by omega, low', high', ?_⟩
    rw [← eq, next]
    exact if_neg here

structure Lies (machine : Machine D) (volume : Volume D) (lba slot offset : Nat) : Prop where
  bound : slot < volume.count
  linear : volume.level = .linear → lba = memberStart machine volume slot + offset ∧
    offset < memberLength machine volume slot
  stripe : volume.level = .stripe →
    lba = (offset / volume.chunk * volume.count + slot) * volume.chunk + offset % volume.chunk ∧
      offset < memberLength machine volume slot

theorem lies_injective (striped : volume.level ≠ .mirror)
    (lies : Lies machine volume lba slot offset) (lies' : Lies machine volume lba' slot offset) : lba = lba' := by
  cases level : volume.level with
  | linear => rw [(lies.linear level).1, (lies'.linear level).1]
  | stripe => rw [(lies.stripe level).1, (lies'.stripe level).1]
  | mirror => exact absurd level striped

theorem stripe_below {chunk count per : Nat} (positive : 0 < chunk) (divides : chunk ∣ per)
    (inside : lba < per * count) : 0 < count ∧ lba / chunk / count * chunk + chunk ≤ per := by
  obtain ⟨rows, rfl⟩ := divides
  have some : 0 < count := by
    apply Nat.pos_of_ne_zero
    rintro rfl
    simp at inside
  have row : lba / chunk / count < rows := by
    rw [Nat.div_div_eq_div_mul, Nat.div_lt_iff_lt_mul (Nat.mul_pos positive some), Nat.mul_comm rows,
      Nat.mul_right_comm]
    exact inside
  refine ⟨some, ?_⟩
  calc lba / chunk / count * chunk + chunk = (lba / chunk / count + 1) * chunk := (Nat.succ_mul _ _).symm
    _ ≤ rows * chunk := Nat.mul_le_mul_right chunk row
    _ = chunk * rows := Nat.mul_comm rows chunk

section
variable (shape : Spread machine volume)
include shape

theorem lies_stripe (level : volume.level = .stripe) (bound : lba < volume.sectors) :
    Lies machine volume lba (lba / volume.chunk % volume.count)
      (lba / volume.chunk / volume.count * volume.chunk + lba % volume.chunk) := by
  obtain ⟨positive, divides, size, members⟩ := shape.stripe level
  rw [size] at bound
  obtain ⟨some, row⟩ := stripe_below positive divides bound
  have slot : lba / volume.chunk % volume.count < volume.count := Nat.mod_lt _ some
  obtain ⟨_, there, fits⟩ := members _ slot
  have offsetDiv : (lba / volume.chunk / volume.count * volume.chunk + lba % volume.chunk) / volume.chunk =
      lba / volume.chunk / volume.count := by
    rw [Nat.mul_comm, Nat.mul_add_div positive, Nat.div_eq_of_lt (Nat.mod_lt _ positive), Nat.add_zero]
  have offsetMod : (lba / volume.chunk / volume.count * volume.chunk + lba % volume.chunk) % volume.chunk =
      lba % volume.chunk := by
    rw [Nat.mul_comm, Nat.mul_add_mod, Nat.mod_mod]
  refine ⟨slot, fun linear => ?_, fun _ => ⟨?_, ?_⟩⟩
  · rw [level] at linear
    cases linear
  · rw [offsetDiv, offsetMod, Nat.div_add_mod' (lba / volume.chunk), Nat.div_add_mod']
  rw [memberLength, there]
  have within := Nat.mod_lt lba positive
  exact lt_of_lt_of_le (by omega) (row.trans fits)

theorem lies_linear (level : volume.level = .linear) (bound : lba < volume.sectors) :
    ∃ slot, Lies machine volume lba slot (lba - memberStart machine volume slot) ∧
      memberStart machine volume slot ≤ lba ∧ locate machine volume lba want =
        (slot, lba - memberStart machine volume slot, min (memberStart machine volume (slot + 1) - lba) want) := by
  have whole := shape.linear level
  have high : lba < memberStart machine volume (0 + volume.count) := by
    rw [Nat.zero_add]
    exact lt_of_lt_of_le bound whole
  obtain ⟨slot, _, low, below, eq⟩ := @locateLinear_spec D machine volume lba want volume.count 0
    (Nat.zero_le _) high
  rw [memberStart_succ] at below
  refine ⟨slot, ⟨by omega, fun _ => by omega, fun stripe => ?_⟩, low, ?_⟩
  · rw [level] at stripe
    cases stripe
  unfold locate
  rw [level]
  exact eq

section
variable (spread : volume.level ≠ .mirror)
include spread

theorem locate_lies {index : Nat}
    (bound : lba + index < volume.sectors) (inside : index < (locate machine volume lba want).2.2) :
    Lies machine volume (lba + index) (locate machine volume lba want).1
      ((locate machine volume lba want).2.1 + index) := by
  cases level : volume.level with
  | mirror => exact absurd level spread
  | linear =>
    obtain ⟨slot, lies, _, eq⟩ := @lies_linear D machine volume lba want shape level (by omega)
    rw [eq] at inside ⊢
    have next := memberStart_succ machine volume slot
    dsimp only at inside ⊢
    refine ⟨lies.bound, fun _ => ⟨by omega, by omega⟩, fun stripe => ?_⟩
    rw [level] at stripe
    cases stripe
  | stripe =>
    have positive := (shape.stripe level).1
    simp only [locate, level] at inside ⊢
    have small : lba % volume.chunk + index < volume.chunk := by omega
    have lies := lies_stripe shape level bound
    have sameChunk : (lba + index) / volume.chunk = lba / volume.chunk := by
      conv_lhs => rw [← Nat.div_add_mod lba volume.chunk, Nat.add_assoc, Nat.mul_add_div positive,
        Nat.div_eq_of_lt small, Nat.add_zero]
    have sameWithin : (lba + index) % volume.chunk = lba % volume.chunk + index := by
      conv_lhs => rw [← Nat.div_add_mod lba volume.chunk, Nat.add_assoc, Nat.mul_add_mod,
        Nat.mod_eq_of_lt small]
    rw [sameChunk, sameWithin, ← Nat.add_assoc] at lies
    exact lies

theorem lies_functional {slot' offset' : Nat} (lies : Lies machine volume lba slot offset)
    (lies' : Lies machine volume lba slot' offset') : slot = slot' ∧ offset = offset' := by
  cases level : volume.level with
  | mirror => exact absurd level spread
  | linear =>
    have place := lies.linear level
    have place' := lies'.linear level
    have next := memberStart_succ machine volume slot
    have next' := memberStart_succ machine volume slot'
    have sameSlot : slot = slot' := by
      rcases Nat.lt_trichotomy slot slot' with less | same | more
      · have mono := @memberStart_mono D machine volume _ _ (Nat.succ_le_of_lt less)
        rw [Nat.succ_eq_add_one] at mono
        omega
      · exact same
      · have mono := @memberStart_mono D machine volume _ _ (Nat.succ_le_of_lt more)
        rw [Nat.succ_eq_add_one] at mono
        omega
    subst sameSlot
    exact ⟨rfl, by omega⟩
  | stripe =>
    have positive := (shape.stripe level).1
    have numbers : ∀ {slot offset}, Lies machine volume lba slot offset →
        slot = lba / volume.chunk % volume.count ∧
          offset = lba / volume.chunk / volume.count * volume.chunk + lba % volume.chunk := by
      intro slot offset lies
      have small := Nat.mod_lt offset positive
      have chunk : lba / volume.chunk = offset / volume.chunk * volume.count + slot := by
        conv_lhs => rw [(lies.stripe level).1, Nat.mul_comm _ volume.chunk, Nat.mul_add_div positive,
          Nat.div_eq_of_lt small, Nat.add_zero]
      have within : lba % volume.chunk = offset % volume.chunk := by
        conv_lhs => rw [(lies.stripe level).1, Nat.mul_comm _ volume.chunk, Nat.mul_add_mod, Nat.mod_mod]
      have some : 0 < volume.count := Nat.zero_lt_of_lt lies.bound
      rw [chunk, within, Nat.mul_comm _ volume.count, Nat.mul_add_mod, Nat.mod_eq_of_lt lies.bound,
        Nat.mul_add_div some, Nat.div_eq_of_lt lies.bound, Nat.add_zero, Nat.div_add_mod']
      exact ⟨rfl, rfl⟩
    have first := numbers lies
    have second := numbers lies'
    exact ⟨first.1.trans second.1.symm, first.2.trans second.2.symm⟩

theorem locate_positive
    (bound : lba < volume.sectors) (some : 0 < want) : 0 < (locate machine volume lba want).2.2 := by
  cases level : volume.level with
  | mirror => exact absurd level spread
  | linear =>
    obtain ⟨slot, lies, _, eq⟩ := @lies_linear D machine volume lba want shape level bound
    have place := (lies.linear level).2
    have next := memberStart_succ machine volume slot
    rw [eq]
    dsimp only
    omega
  | stripe =>
    have within := Nat.mod_lt lba (shape.stripe level).1
    simp only [locate, level]
    omega

end

end

theorem locate_le_want (machine : Machine D) (volume : Volume D) (lba want : Nat) :
    (locate machine volume lba want).2.2 ≤ want := by
  have linear : ∀ left slot start, (locateLinear machine volume lba want left slot start).2.2 ≤ want := by
    intro left
    induction left with
    | zero =>
      intro slot start
      exact Nat.zero_le _
    | succ left ih =>
      intro slot start
      unfold locateLinear
      dsimp only
      split
      · exact min_le_right _ _
      · exact ih _ _
  unfold locate
  cases volume.level with
  | stripe => exact min_le_right _ _
  | linear => exact linear _ _ _
  | mirror => exact linear _ _ _

theorem usable_congr (sizes : ∀ disk, (machine'.disks disk).sectors = (machine.disks disk).sectors) :
    machine'.usable = machine.usable := by
  funext disk
  unfold Machine.usable
  rw [sizes disk]

theorem memberLength_congr (usable : machine'.usable = machine.usable) (volume : Volume D) :
    memberLength machine' volume = memberLength machine volume := by
  funext slot
  unfold memberLength
  rw [usable]

theorem lies_congr (usable : machine'.usable = machine.usable) :
    Lies machine' volume lba slot offset ↔ Lies machine volume lba slot offset := by
  have length := memberLength_congr usable volume
  constructor
  · intro lies
    refine ⟨lies.bound, ?_, ?_⟩
    · simpa only [memberStart, length] using lies.linear
    · simpa only [length] using lies.stripe
  intro lies
  refine ⟨lies.bound, ?_, ?_⟩
  · simpa only [memberStart, length] using lies.linear
  · simpa only [length] using lies.stripe

end AerOS.Proof.Raid
