import AerOS.Proof.Clock.Calendar

namespace AerOS.Proof.Clock
open AerOS.Clock

section
variable {year month day : Nat}

theorem year_total (year : Nat) : total (monthDays year) 1 12 = yearDays year := by
  cases leap : isLeap year <;> simp [total, monthDays, yearDays, leap]

theorem inMonth_of_valid (valid : Valid year month day) : day ≤ monthDays year month :=
  monthDays_eq year valid.lower valid.upper ▸ valid.within

theorem inYear_of_valid (valid : Valid year month day) :
    total (monthDays year) 1 (month - 1) + (day - 1) < yearDays year := by
  have within := inMonth_of_valid valid
  obtain ⟨-, -, lower, upper, positive, -⟩ := valid
  rw [← year_total]
  cases leap : isLeap year <;> interval_cases month <;> simp [total, monthDays, leap] at within ⊢ <;> omega

theorem days_of_valid (valid : Valid year month day) : civilDays year month day =
    (total yearDays 1970 (year - 1970) + (total (monthDays year) 1 (month - 1) + (day - 1)) : Nat) := by
  have years := civilDays_year (year - 1970)
  rw [Nat.add_sub_cancel' valid.first] at years
  rw [civilDays_month year valid.lower valid.upper, years]
  have := valid.positive
  omega

theorem civil_eq_of_valid (valid : Valid year month day) : civil some (civilDays year month day) =
    some ((year : Int), (month : Int), marchDay month day, ((month : Int) + 9) % 12) :=
  civil_some year valid.lower valid.upper valid.positive valid.within

theorem short_of_valid (valid : Valid year month day) : day ≤ 31 := by
  have within := valid.within
  unfold monthLength at within
  repeat' split at within
  all_goals omega

theorem dateTimeAt_civil (valid : Valid year month day) {seconds : Nat}
    (date : civilDays year month day = (seconds / 86400 : Nat)) :
    dateTimeAt seconds = some ⟨year, month, day, seconds % 86400 / 3600, seconds % 86400 / 60 % 60⟩ := by
  have days := Int.ofNat.inj (date.symm.trans (days_of_valid valid))
  have years : advance yearDays 9999 8030 1970 (seconds / 86400) =
      (year, total (monthDays year) 1 (month - 1) + (day - 1)) := by
    have moved := valid.first
    have last := valid.last
    rw [days, advance_total (by omega) (by omega), Nat.add_sub_cancel' moved]
    rw [Nat.add_sub_cancel' moved]
    exact Or.inl (inYear_of_valid valid)
  have months : advance (monthDays year) 12 12 1 (total (monthDays year) 1 (month - 1) + (day - 1)) =
      (month, day - 1) := by
    have within := inMonth_of_valid valid
    obtain ⟨-, -, lower, upper, positive, -⟩ := valid
    rw [advance_total (by omega) (by omega), Nat.add_sub_cancel' lower]
    rw [Nat.add_sub_cancel' lower]
    omega
  have := valid.positive
  have := short_of_valid valid
  simp only [dateTimeAt, years, months]
  rw [if_neg (by omega), Nat.mod_eq_of_lt (by omega), Nat.sub_add_cancel valid.positive]

theorem total_mono (length : Nat → Nat) (unit : Nat) : Monotone (total length unit) := by
  apply monotone_nat_of_le_succ
  intro count
  rw [total_succ]
  exact Nat.le_add_right _ _

theorem years_to_10000 : total yearDays 1970 8030 = 2932897 := by
  have := civilDays_year 8030
  rw [show civilDays (1970 + 8030 : Nat) 1 1 = 2932897 by decide] at this
  omega

/-- Every day before the year 10000 has a date. -/
theorem date_exists {days : Nat} (early : days < 2932897) : ∃ year month day, Valid year month day ∧
    civilDays year month day = days ∧ total yearDays 1970 (year - 1970) ≤ days ∧
    days < total yearDays 1970 (year - 1970 + 1) := by
  obtain ⟨years, rest, -, within, split, stops⟩ := @advance_spec yearDays 9999 8030 1970 days (by decide) (by decide)
  have inYear : rest < yearDays (1970 + years) := by
    rcases stops with inside | last
    · exact inside
    · obtain rfl : years = 8029 := by omega
      have whole := years_to_10000
      rw [total_succ] at whole
      omega
  obtain ⟨months, day, -, within', split', stops'⟩ := @advance_spec (monthDays (1970 + years)) 12 12 1 rest
    (by decide) (by decide)
  have inMonth : day < monthDays (1970 + years) (1 + months) := by
    rcases stops' with inside | last
    · exact inside
    · obtain rfl : months = 11 := by omega
      have whole := year_total (1970 + years)
      rw [total_succ] at whole
      omega
  have valid : Valid (1970 + years) (1 + months) (day + 1) :=
    ⟨by omega, within, by omega, within', by omega, monthDays_eq (1970 + years) (by omega) within' ▸ inMonth⟩
  refine ⟨_, _, _, valid, ?_, ?_, ?_⟩
  · rw [days_of_valid valid, Nat.add_sub_cancel_left, Nat.add_sub_cancel_left, Nat.add_sub_cancel, ← split', ← split]
  · rw [Nat.add_sub_cancel_left, split]
    exact Nat.le_add_right _ _
  · rw [Nat.add_sub_cancel_left, split, total_succ]
    omega

end

theorem i64_of {x : Int} (low : -2 ^ 63 ≤ x) (high : x < 2 ^ 63) : i64 x = some x := if_pos ⟨low, high⟩

theorem bind_of_some {α β : Type} {o : Option α} {a : α} (h : o = some a) (f : α → Option β) : (o >>= f) = f a := by
  rw [h]
  rfl

theorem bind_i64 {α : Type} {x : Int} (low : -2 ^ 63 ≤ x) (high : x < 2 ^ 63) (f : Int → Option α) :
    (i64 x >>= f) = f x := bind_of_some (i64_of low high) f

theorem bind_u64 {α : Type} {x : Nat} (high : x < 2 ^ 64) (f : Nat → Option α) : (u64 x >>= f) = f x :=
  bind_of_some (if_pos high) f

theorem daysFromCivil_i64 {year month day : Int} (y₀ : -10 ^ 7 ≤ year) (y₁ : year ≤ 10 ^ 7) (m₀ : 1 ≤ month)
    (m₁ : month ≤ 12) (d₀ : 0 ≤ day) (d₁ : day ≤ 31) :
    daysFromCivil i64 year month day = some (civilDays year month day) := by
  rw [← daysFromCivil_some]
  unfold daysFromCivil
  split
  · simp (disch := omega) only [i64_of, Option.bind_eq_bind, Option.bind_some]
  · simp (disch := omega) only [i64_of, Option.bind_eq_bind, Option.bind_some]

theorem yearOfEra_i64 {day : Int} (low : 0 ≤ day) (high : day < 146097) :
    ∃ year, yearOfEra i64 day = some year ∧ yearOfEra some day = some year ∧ 0 ≤ year ∧ year ≤ 400 := by
  refine ⟨(day - day / 1460 + day / 36524 - day / 146096) / 365, ?_, rfl, by omega, by omega⟩
  unfold yearOfEra
  simp (disch := omega) only [i64_of, Option.bind_eq_bind, Option.bind_some]

theorem civil_i64 {days : Int} (low : -10 ^ 9 ≤ days) (high : days ≤ 10 ^ 9) : civil i64 days = civil some days := by
  unfold civil
  rw [i64_of (by omega) (by omega)]
  simp only [Option.bind_eq_bind, Option.bind_some]
  have era : -10 ^ 5 ≤ (days + 719468) / 146097 ∧ (days + 719468) / 146097 ≤ 10 ^ 5 := by omega
  obtain ⟨year, checked, exact, first, last⟩ := @yearOfEra_i64 ((days + 719468) % 146097) (by omega) (by omega)
  have inEra : 0 ≤ (days + 719468) % 146097 ∧ (days + 719468) % 146097 < 146097 := by omega
  rw [checked, exact]
  generalize (days + 719468) / 146097 = number at *
  generalize (days + 719468) % 146097 = day at *
  have start : 0 ≤ 365 * year + year / 4 - year / 100 ∧ 365 * year + year / 4 - year / 100 ≤ 146100 := by omega
  simp only [Option.bind_some]
  rw [@i64_of (365 * year) (by omega) (by omega), Option.bind_some,
    @i64_of (365 * year + year / 4) (by omega) (by omega), Option.bind_some,
    @i64_of (365 * year + year / 4 - year / 100) (by omega) (by omega), Option.bind_some]
  generalize 365 * year + year / 4 - year / 100 = begins at *
  simp (disch := omega) only [i64_of, Option.bind_some]

section
variable {year month day seconds : Nat}

theorem early_of_valid (valid : Valid year month day) :
    total yearDays 1970 (year - 1970) + (total (monthDays year) 1 (month - 1) + (day - 1)) < 2932897 := by
  have inYear := inYear_of_valid valid
  have years := (total_mono yearDays 1970 (show year - 1970 + 1 ≤ 8030 by have := valid.last; omega)).trans_eq
    years_to_10000
  rw [total_succ, Nat.add_sub_cancel' valid.first] at years
  omega

theorem civil_at_of_valid (valid : Valid year month day) (date : civilDays year month day = (seconds / 86400 : Nat)) :
    civil i64 (seconds / 86400 : Nat) =
      some ((year : Int), (month : Int), marchDay month day, ((month : Int) + 9) % 12) := by
  have early := early_of_valid valid
  have days := days_of_valid valid
  rw [civil_i64 (by omega) (by omega), ← date]
  exact civil_eq_of_valid valid

theorem unixToFat_civil (valid : Valid year month day) (date : civilDays year month day = (seconds / 86400 : Nat)) :
    unixToFat i64 seconds = if (year : Int) < 1980 then some (0x21, 0) else
      some (fatDate (year - 1980) month day, fatTime (seconds % 86400)) := by
  have last := valid.last
  have first := valid.positive
  have starts : marchDay month day - (153 * (((month : Int) + 9) % 12) + 2) / 5 = day - 1 := by
    unfold marchDay
    ring
  have short := short_of_valid valid
  have years : ((year : Int) - 1980).toNat = year - 1980 := Int.toNat_sub year 1980
  unfold unixToFat
  simp (disch := omega) only [bind_of_some (civil_at_of_valid valid date), bind_i64, starts, Int.sub_add_cancel,
    Int.toNat_natCast, years]

theorem packed {a b c : Nat} (i j : Nat) (hb : b < 2 ^ i) (hc : c < 2 ^ j) :
    a <<< (i + j) ||| b <<< j ||| c = (a * 2 ^ i + b) * 2 ^ j + c := by
  have high : b <<< j < 2 ^ (i + j) := by
    rw [Nat.shiftLeft_eq, Nat.pow_add]
    exact Nat.mul_lt_mul_of_pos_right hb (Nat.two_pow_pos j)
  rw [← Nat.shiftLeft_add_eq_or_of_lt high, Nat.shiftLeft_eq, Nat.shiftLeft_eq, Nat.pow_add, ← Nat.mul_assoc,
    ← Nat.add_mul, ← Nat.shiftLeft_eq, ← Nat.shiftLeft_add_eq_or_of_lt hc, Nat.shiftLeft_eq]

theorem fatDate_eq {years month day : Nat} (hy : years < 128) (hm : month < 16) (hd : day < 32) :
    fatDate years month day = (years * 16 + month) * 32 + day := by
  have shifted : years <<< 9 % 2 ^ 32 = years <<< (4 + 5) := Nat.mod_eq_of_lt (by rw [Nat.shiftLeft_eq]; omega)
  rw [fatDate, Nat.mod_eq_of_lt (by omega : years < 2 ^ 32), shifted, packed 4 5 hm hd]
  exact Nat.mod_eq_of_lt (by omega)

theorem fatTime_eq {ofDay : Nat} (h : ofDay < 86400) :
    fatTime ofDay = (ofDay / 3600 * 64 + ofDay / 60 % 60) * 32 + ofDay % 60 / 2 := by
  rw [fatTime, packed 6 5 (by omega) (by omega)]
  exact Nat.mod_eq_of_lt (by omega)

theorem fatToUnix_civil (valid : Valid year month day) (date : civilDays year month day = (seconds / 86400 : Nat))
    (low : 1980 ≤ year) (high : year ≤ 2107) : ∃ stamp time, unixToFat i64 seconds = some (stamp, time) ∧
      fatToUnix i64 stamp time = some (seconds / 2 * 2) := by
  obtain ⟨-, -, lower, upper, positive, -⟩ := id valid
  have short := short_of_valid valid
  have ofDay : seconds % 86400 < 86400 := Nat.mod_lt _ (by decide)
  refine ⟨_, _, by rw [unixToFat_civil valid date, if_neg (by omega)], ?_⟩
  rw [fatDate_eq (by omega) (by omega) (by omega), fatTime_eq ofDay]
  have mask15 : ∀ v, v &&& 15 = v % 16 := fun v => Nat.and_two_pow_sub_one_eq_mod v 4
  have mask31 : ∀ v, v &&& 31 = v % 32 := fun v => Nat.and_two_pow_sub_one_eq_mod v 5
  have mask63 : ∀ v, v &&& 63 = v % 64 := fun v => Nat.and_two_pow_sub_one_eq_mod v 6
  unfold fatToUnix
  simp only [mask15, mask31, mask63, Nat.shiftRight_eq_div_pow]
  rw [show (((year - 1980) * 16 + month) * 32 + day) / 2 ^ 9 = year - 1980 by omega,
    show (((year - 1980) * 16 + month) * 32 + day) / 2 ^ 5 % 16 = month by omega,
    show (((year - 1980) * 16 + month) * 32 + day) % 32 = day by omega,
    if_neg (by omega), Nat.add_sub_cancel' low]
  have early := early_of_valid valid
  have days := days_of_valid valid
  rw [bind_of_some (daysFromCivil_i64 (by omega) (by omega) (by omega) (by omega) (by omega) (by omega)), date]
  simp (disch := omega) only [bind_i64]
  congr 1
  omega

end

theorem toUnix_civil {year month day hour minute second : Nat} (valid : Valid year month day) (hh : hour ≤ 23)
    (hm : minute ≤ 59) (hs : second ≤ 59) : toUnix year month day hour minute second =
      some ((total yearDays 1970 (year - 1970) + (total (monthDays year) 1 (month - 1) + (day - 1))) * 86400 +
        hour * 3600 + minute * 60 + second) := by
  have inMonth := inMonth_of_valid valid
  have early := early_of_valid valid
  obtain ⟨first, last, lower, upper, positive, -⟩ := id valid
  unfold toUnix
  rw [if_neg (by omega), if_neg (by omega), ← Nat.add_assoc] at *
  simp (disch := omega) only [bind_u64]
  exact if_pos (by omega)

theorem daysFromCivil_of_valid {year month day : Nat} (valid : Valid year month day) :
    daysFromCivil i64 year month day = some
      ((total yearDays 1970 (year - 1970) + (total (monthDays year) 1 (month - 1) + (day - 1)) : Nat) : Int) := by
  have short := short_of_valid valid
  obtain ⟨first, last, lower, upper, positive, -⟩ := id valid
  rw [daysFromCivil_i64 (by omega) (by omega) (by omega) (by omega) (by omega) (by omega), days_of_valid valid]

theorem yearOf_of_valid {year month day : Nat} (valid : Valid year month day) :
    yearOf i64 ((total yearDays 1970 (year - 1970) + (total (monthDays year) 1 (month - 1) + (day - 1)) : Nat) : Int) =
      some (year : Int) := by
  have early := early_of_valid valid
  unfold yearOf
  rw [civil_i64 (by omega) (by omega), ← days_of_valid valid, bind_of_some (civil_eq_of_valid valid)]

end AerOS.Proof.Clock
