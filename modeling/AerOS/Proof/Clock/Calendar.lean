import AerOS.Spec.Clock
import Mathlib.Tactic.IntervalCases
import Mathlib.Tactic.Ring

namespace AerOS.Proof.Clock
open AerOS.Clock

theorem total_succ (length : Nat → Nat) (unit count : Nat) :
    total length unit (count + 1) = total length unit count + length (unit + count) := by
  induction count generalizing unit with
  | zero => simp [total]
  | succ count ih => rw [total, ih, total, Nat.add_assoc, Nat.add_assoc, Nat.add_comm 1 count]

theorem advance_total {length : Nat → Nat} {last rounds unit count days : Nat} (within : unit + count ≤ last)
    (enough : count < rounds) (stops : days < length (unit + count) ∨ unit + count = last) :
    advance length last rounds unit (total length unit count + days) = (unit + count, days) := by
  induction count generalizing rounds unit with
  | zero =>
    cases rounds with
    | zero => omega
    | succ rounds =>
      rw [total, Nat.zero_add, advance]
      exact if_pos stops
  | succ count ih =>
    cases rounds with
    | zero => omega
    | succ rounds =>
      rw [total, advance, if_neg (by omega), show length unit + total length (unit + 1) count + days - length unit =
        total length (unit + 1) count + days by omega]
      rw [show unit + (count + 1) = unit + 1 + count by omega] at stops within ⊢
      exact ih within (by omega) stops

/-- What the loop takes off are whole units, and it stops within a unit or at the last one. -/
theorem advance_spec (length : Nat → Nat) (last : Nat) {rounds unit days : Nat} (within : unit ≤ last)
    (enough : last < unit + rounds) :
    ∃ count rest, advance length last rounds unit days = (unit + count, rest) ∧ unit + count ≤ last ∧
      days = total length unit count + rest ∧ (rest < length (unit + count) ∨ unit + count = last) := by
  induction rounds generalizing unit days with
  | zero => omega
  | succ rounds ih =>
    rw [advance]
    split
    · next stops => exact ⟨0, days, rfl, within, by simp [total], stops⟩
    · next goes =>
      obtain ⟨count, rest, result, inside, split, stops⟩ := @ih (unit + 1) (days - length unit) (by omega) (by omega)
      refine ⟨count + 1, rest, ?_, by omega, ?_, ?_⟩
      · rw [result, Nat.add_assoc, Nat.add_comm 1 count]
      · rw [total]
        omega
      · rwa [show unit + (count + 1) = unit + 1 + count by omega]

theorem isLeap_iff (year : Nat) : isLeap year = true ↔ LeapYear year := by
  simp only [isLeap, LeapYear, Bool.and_eq_true, Bool.or_eq_true, decide_eq_true_eq]
  omega

theorem yearDays_eq (year : Nat) : yearDays year = if LeapYear year then 366 else 365 := by
  rw [yearDays]
  split
  · next leap => rw [(isLeap_iff year).mpr leap]; rfl
  · next common => rw [Bool.eq_false_iff.mpr fun leap => common ((isLeap_iff year).mp leap)]; rfl

theorem monthDays_eq (year : Nat) {month : Nat} (lower : 1 ≤ month) (upper : month ≤ 12) :
    monthDays year month = monthLength year month := by
  by_cases leap : LeapYear year
  · have isLeap := (isLeap_iff year).mpr leap
    interval_cases month <;> simp [monthDays, monthLength, isLeap, leap]
  · have isLeap := Bool.eq_false_iff.mpr fun isLeap => leap ((isLeap_iff year).mp isLeap)
    interval_cases month <;> simp [monthDays, monthLength, isLeap, leap]

/-- The number of the day of the year that begins in March, from the month and the day. -/
def marchDay (month day : Int) : Int := (153 * ((month + 9) % 12) + 2) / 5 + day - 1

def marchYear (year month : Int) : Int := if month ≤ 2 then year - 1 else year

def civilDays (year month day : Int) : Int :=
  let shifted := marchYear year month
  shifted / 400 * 146097 + (shifted % 400 * 365 + shifted % 400 / 4 - shifted % 400 / 100 + marchDay month day) - 719468

theorem daysFromCivil_some (year month day : Int) :
    daysFromCivil some year month day = some (civilDays year month day) := by
  unfold daysFromCivil civilDays marchYear marchDay
  split <;> rfl

theorem civilDays_shift {year month other : Int} (same : marchYear year month = marchYear year other)
    (day day' : Int) : civilDays year month day = civilDays year other day' + (marchDay month day - marchDay other day') := by
  unfold civilDays
  rw [same]
  ring

theorem civilDays_march (year : Int) :
    civilDays year 3 1 = civilDays year 1 1 + if LeapYear year then 60 else 59 := by
  have first : marchYear year 1 = year - 1 := by simp [marchYear]
  have third : marchYear year 3 = year := by simp [marchYear]
  have days : marchDay 1 1 = 306 ∧ marchDay 3 1 = 0 := by decide
  simp only [civilDays, first, third, days]
  split
  · next leap =>
    unfold LeapYear at leap
    omega
  · next common =>
    unfold LeapYear at common
    omega

theorem civilDays_next (year : Int) :
    civilDays (year + 1) 1 1 = civilDays year 1 1 + if LeapYear year then 366 else 365 := by
  have winter : civilDays (year + 1) 1 1 = civilDays year 3 1 + 306 := by
    have first : marchYear (year + 1) 1 = year := by simp [marchYear]
    have third : marchYear year 3 = year := by simp [marchYear]
    have days : marchDay 1 1 = 306 ∧ marchDay 3 1 = 0 := by decide
    simp only [civilDays, first, third, days]
    ring
  rw [winter, civilDays_march]
  split <;> ring

theorem civilDays_month (year : Nat) {month : Nat} (lower : 1 ≤ month) (upper : month ≤ 12) (day : Int) :
    civilDays year month day = civilDays year 1 1 + total (monthDays year) 1 (month - 1) + (day - 1) := by
  rcases Nat.lt_or_ge month 3 with winter | later
  · rw [civilDays_shift (show marchYear year month = marchYear year 1 by simp [marchYear]; omega) day 1]
    interval_cases month <;> simp [marchDay, total, monthDays] <;> ring
  rw [civilDays_shift (show marchYear year month = marchYear year 3 by simp [marchYear]; omega) day 1,
    civilDays_march]
  by_cases leap : LeapYear year
  · have isLeap := (isLeap_iff year).mpr leap
    interval_cases month <;> simp [marchDay, total, monthDays, isLeap, leap] <;> ring
  · have isLeap := Bool.eq_false_iff.mpr fun isLeap => leap ((isLeap_iff year).mp isLeap)
    interval_cases month <;> simp [marchDay, total, monthDays, isLeap, leap] <;> ring

theorem civilDays_year (count : Nat) : civilDays (1970 + count : Nat) 1 1 = total yearDays 1970 count := by
  induction count with
  | zero => decide
  | succ count ih =>
    rw [total_succ, ← Nat.add_assoc, Nat.cast_succ, civilDays_next, ih, yearDays_eq]
    push_cast
    rfl

/-- The days before a year of the era. -/
def eraDays (year : Int) : Int := year * 365 + year / 4 - year / 100

theorem eraDays_split (centuries : Int) {cycles years : Int} (q₀ : 0 ≤ cycles) (q₁ : cycles < 25) (r₀ : 0 ≤ years)
    (r₁ : years < 4) :
    eraDays (100 * centuries + 4 * cycles + years) = 36524 * centuries + 1461 * cycles + 365 * years := by
  have quarters : (100 * centuries + 4 * cycles + years) / 4 = 25 * centuries + cycles := by omega
  have hundreds : (100 * centuries + 4 * cycles + years) / 100 = centuries := by omega
  rw [eraDays, quarters, hundreds]
  ring

theorem yearOfEra_recovered {year dayOfYear : Int} (y₀ : 0 ≤ year) (y₁ : year < 400) (low : 0 ≤ dayOfYear)
    (high : dayOfYear < 365 ∨ dayOfYear = 365 ∧ year % 4 = 3 ∧ (year % 100 < 96 ∨ year = 399))
    {dayOfEra : Int} (sum : dayOfEra = eraDays year + dayOfYear) : 0 ≤ dayOfEra ∧ dayOfEra < 146097 ∧
      (dayOfEra - dayOfEra / 1460 + dayOfEra / 36524 - dayOfEra / 146096) / 365 = year := by
  obtain ⟨centuries, cycles, years, c₀, c₁, q₀, q₁, r₀, r₁, rfl⟩ : ∃ c q r : Int, 0 ≤ c ∧ c < 4 ∧ 0 ≤ q ∧ q < 25 ∧
      0 ≤ r ∧ r < 4 ∧ year = 100 * c + 4 * q + r :=
    ⟨year / 100, year % 100 / 4, year % 4, by omega, by omega, by omega, by omega, by omega, by omega, by omega⟩
  have late : dayOfYear < 365 ∨ dayOfYear = 365 ∧ years = 3 ∧ (cycles < 24 ∨ centuries = 3) := by omega
  rw [eraDays_split centuries q₀ q₁ r₀ r₁] at sum
  have leaps : dayOfEra / 36524 - dayOfEra / 146096 = centuries := by
    have : dayOfEra / 146096 = 0 ∨ dayOfEra / 146096 = 1 := by omega
    omega
  have carry : dayOfEra / 1460 =
      25 * centuries + cycles + (24 * centuries + cycles + 365 * years + dayOfYear) / 1460 := by omega
  have small : (24 * centuries + cycles + 365 * years + dayOfYear) / 1460 = 0 ∨
      (24 * centuries + cycles + 365 * years + dayOfYear) / 1460 = 1 := by omega
  refine ⟨by omega, by omega, ?_⟩
  clear high
  generalize dayOfEra / 36524 = a at *
  generalize dayOfEra / 146096 = b at *
  generalize dayOfEra / 1460 = e at *
  omega

theorem marchDay_spec (year : Int) {month day : Nat} (lower : 1 ≤ month) (upper : month ≤ 12) (positive : 1 ≤ day)
    (valid : day ≤ monthLength year month) :
    0 ≤ marchDay month day ∧ (5 * marchDay month day + 2) / 153 = (month + 9) % 12 ∧
      (marchDay month day < 365 ∨ marchDay month day = 365 ∧ month = 2 ∧ LeapYear year) := by
  by_cases leap : LeapYear year
  · interval_cases month <;> simp [monthLength, leap] at valid <;> simp [marchDay, leap] <;> omega
  · interval_cases month <;> simp [monthLength, leap] at valid <;> simp [marchDay, leap] <;> omega

theorem civil_some (year : Int) {month day : Nat} (lower : 1 ≤ month) (upper : month ≤ 12) (positive : 1 ≤ day)
    (valid : day ≤ monthLength year month) : civil some (civilDays year month day) =
      some (year, (month : Int), marchDay month day, ((month : Int) + 9) % 12) := by
  obtain ⟨low, index, high⟩ := marchDay_spec year lower upper positive valid
  have late : marchDay month day < 365 ∨ marchDay month day = 365 ∧ marchYear year month % 4 = 3 ∧
      (marchYear year month % 100 < 96 ∨ marchYear year month % 400 = 399) := by
    rcases high with inside | ⟨last, rfl, leap⟩
    · exact Or.inl inside
    · refine Or.inr ⟨last, ?_⟩
      unfold LeapYear at leap
      simp only [marchYear, Nat.cast_ofNat, Int.le_refl, if_true]
      omega
  have inEra : 0 ≤ marchYear year month % 400 ∧ marchYear year month % 400 < 400 := by omega
  obtain ⟨first, last, recovered⟩ := yearOfEra_recovered inEra.1 inEra.2 low (by omega) rfl
  have days : civilDays year month day + 719468 = marchYear year month / 400 * 146097 +
      (eraDays (marchYear year month % 400) + marchDay month day) := by
    unfold civilDays eraDays
    ring
  have start : 365 * (marchYear year month % 400) + marchYear year month % 400 / 4 - marchYear year month % 400 / 100 =
      eraDays (marchYear year month % 400) := by
    unfold eraDays
    ring
  have era : ∀ e doe : Int, 0 ≤ doe → doe < 146097 → (e * 146097 + doe) / 146097 = e ∧
      (e * 146097 + doe) % 146097 = doe := by omega
  obtain ⟨quotient, rest⟩ := era (marchYear year month / 400) _ first last
  unfold civil yearOfEra
  simp only [Option.bind_eq_bind, Option.bind_some]
  rw [days, quotient, rest, recovered, start, add_sub_cancel_left, index]
  clear late high recovered start days quotient rest first last
  rcases Int.lt_or_le 2 month with later | winter
  · have same : marchYear year month = year := if_neg (by omega)
    rw [same, show ((month : Int) + 9) % 12 = month - 3 by omega, if_pos (by omega), if_neg (by omega)]
    simp only [Option.some.injEq, Prod.mk.injEq, and_true]
    omega
  · have before : marchYear year month = year - 1 := if_pos winter
    rw [before, show ((month : Int) + 9) % 12 = month + 9 by omega, if_neg (by omega), if_pos (by omega)]
    simp only [Option.some.injEq, Prod.mk.injEq, and_true]
    omega

end AerOS.Proof.Clock
