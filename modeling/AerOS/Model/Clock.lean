import Mathlib.Algebra.Order.Ring.Int

/-!
# Clock and calendar (`kernel/src/rtc.rs`, `kernel/src/timezone.rs`, the stamps of `kernel/src/fatfs.rs`)

Overflow checks are on in the kernel. `check` is the check of one result: `i64` as the code runs,
`some` for the same computation on integers. What the source divides with `/` is not negative, so
that this and `div_euclid` are both the division of integers here. `none` is a panic, except in
`toUnix`, which returns an error.
-/

namespace AerOS.Clock

def i64 (x : Int) : Option Int := if -2 ^ 63 ≤ x ∧ x < 2 ^ 63 then some x else none

def u64 (x : Nat) : Option Nat := if x < 2 ^ 64 then some x else none

def isLeap (year : Nat) : Bool := year % 4 = 0 && (year % 100 ≠ 0 || year % 400 = 0)

def yearDays (year : Nat) : Nat := 365 + (isLeap year).toNat

def monthDays (year month : Nat) : Nat :=
  [31, 28, 31, 30, 31, 30, 31, 31, 30, 31, 30, 31].getD (month - 1) 0 + (month == 2 && isLeap year).toNat

/-- The fields of a FAT stamp, shifted together in 32 bits and cast to 16. -/
def fatDate (years month day : Nat) : Nat :=
  ((years % 2 ^ 32) <<< 9 % 2 ^ 32 ||| month <<< 5 ||| day) % 2 ^ 16

def fatTime (ofDay : Nat) : Nat :=
  ((ofDay / 3600) <<< 11 ||| (ofDay / 60 % 60) <<< 5 ||| ofDay % 60 / 2) % 2 ^ 16

structure UtcDateTime where
  year : Nat
  month : Nat
  day : Nat
  hour : Nat
  minute : Nat
  deriving DecidableEq, Repr

/-- The loops of `date_time_at` over the years and the months: takes whole units off the days. -/
def advance (length : Nat → Nat) (last : Nat) : Nat → Nat → Nat → Nat × Nat
  | 0, unit, days => (unit, days)
  | rounds + 1, unit, days =>
    if days < length unit ∨ unit = last then (unit, days)
    else advance length last rounds (unit + 1) (days - length unit)

def dateTimeAt (seconds : Nat) : Option UtcDateTime :=
  let years := advance yearDays 9999 8030 1970 (seconds / 86400)
  let months := advance (monthDays years.1) 12 12 1 years.2
  let secondsOfDay := seconds % 86400
  -- The cast keeps eight bits; adding one is checked.
  if months.2 % 256 = 255 then none
  else some
    { year := years.1
      month := months.1
      day := months.2 % 256 + 1
      hour := secondsOfDay / 3600
      minute := secondsOfDay / 60 % 60 }

/-- The days of so many units from the given one on. -/
def total (length : Nat → Nat) : Nat → Nat → Nat
  | _, 0 => 0
  | unit, count + 1 => length unit + total length (unit + 1) count

def toUnix (year month day hour minute second : Nat) : Option Nat :=
  if ¬(1970 ≤ year ∧ year ≤ 9999) ∨ ¬(1 ≤ month ∧ month ≤ 12) ∨ hour > 23 ∨ minute > 59 ∨ second > 60 then none
  else if day = 0 ∨ day > monthDays year month then none
  else do
    let whole := total yearDays 1970 (year - 1970) + total (monthDays year) 1 (month - 1)
    let days ← u64 (whole + (day - 1))
    let hours ← u64 ((← u64 (days * 86400)) + hour * 3600)
    u64 ((← u64 (hours + minute * 60)) + second)

section
variable (check : Int → Option Int)

def daysFromCivil (year month day : Int) : Option Int := do
  let year ← if month ≤ 2 then check (year - 1) else some year
  let era := year / 400
  let yearOfEra := year % 400
  let monthIndex := (← check (month + 9)) % 12
  let scaled ← check ((← check (153 * monthIndex)) + 2)
  let dayOfYear ← check ((← check (scaled / 5 + day)) - 1)
  let quarters ← check ((← check (yearOfEra * 365)) + yearOfEra / 4)
  let dayOfEra ← check ((← check (quarters - yearOfEra / 100)) + dayOfYear)
  check ((← check ((← check (era * 146097)) + dayOfEra)) - 719468)

def yearOfEra (dayOfEra : Int) : Option Int := do
  let counted ← check ((← check (dayOfEra - dayOfEra / 1460)) + dayOfEra / 36524)
  some ((← check (counted - dayOfEra / 146096)) / 365)

/-- What `year_of` and `unix_to_fat` both compute: year, month, day of the year and month index. -/
def civil (days : Int) : Option (Int × Int × Int × Int) := do
  let z ← check (days + 719468)
  let era := z / 146097
  let dayOfEra := z % 146097
  let yearOfEra ← yearOfEra check dayOfEra
  let quarters ← check ((← check (365 * yearOfEra)) + yearOfEra / 4)
  let dayOfYear ← check (dayOfEra - (← check (quarters - yearOfEra / 100)))
  let monthIndex := (← check ((← check (5 * dayOfYear)) + 2)) / 153
  let month ← if monthIndex < 10 then check (monthIndex + 3) else check (monthIndex - 9)
  let year ← check (yearOfEra + (← check (era * 400)))
  let year ← if month ≤ 2 then check (year + 1) else some year
  some (year, month, dayOfYear, monthIndex)

def yearOf (days : Int) : Option Int := do
  let date ← civil check days
  some date.1

def unixToFat (seconds : Nat) : Option (Nat × Nat) := do
  let date ← civil check (seconds / 86400 : Nat)
  let year := date.1
  let dayOfYear := date.2.2.1
  let monthIndex := date.2.2.2
  let scaled ← check ((← check (153 * monthIndex)) + 2)
  let day ← check ((← check (dayOfYear - scaled / 5)) + 1)
  if year < 1980 then some (0x21, 0)
  else do
    let years ← check (year - 1980)
    some (fatDate years.toNat date.2.1.toNat day.toNat, fatTime (seconds % 86400))

def fatToUnix (date time : Nat) : Option Nat :=
  let year := 1980 + date >>> 9
  let month := date >>> 5 &&& 15
  let day := date &&& 31
  if date = 0 ∨ ¬(1 ≤ month ∧ month ≤ 12) ∨ day = 0 then some 0
  else do
    let days ← daysFromCivil check year month day
    let seconds := (time >>> 11) * 3600 + (time >>> 5 &&& 63) * 60 + (time &&& 31) * 2
    let unix ← check ((← check (days * 86400)) + seconds)
    some (max unix 0).toNat

end

end AerOS.Clock
