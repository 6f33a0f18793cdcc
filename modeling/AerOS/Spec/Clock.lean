import AerOS.Model.Clock

/-!
# The civil calendar
-/

namespace AerOS.Clock

def LeapYear (year : Int) : Prop := year % 4 = 0 ∧ (year % 100 ≠ 0 ∨ year % 400 = 0)

instance (year : Int) : Decidable (LeapYear year) := inferInstanceAs (Decidable (_ ∧ _))

/-- The days of a month, for every year. -/
def monthLength (year : Int) : Nat → Nat
  | 2 => if LeapYear year then 29 else 28
  | 4 | 6 | 9 | 11 => 30
  | _ => 31

structure Valid (year month day : Nat) : Prop where
  first : 1970 ≤ year
  last : year ≤ 9999
  lower : 1 ≤ month
  upper : month ≤ 12
  positive : 1 ≤ day
  within : day ≤ monthLength year month

end AerOS.Clock
