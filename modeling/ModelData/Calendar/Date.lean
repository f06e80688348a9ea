import ModelData.Number.Digits

/-!
Days of the Gregorian calendar from the year 1 on, extended backwards in time. Days are
counted from the first day of the year 1, which was a Monday.
-/

namespace ModelData

structure Date where
  year : Nat
  month : Nat
  day : Nat
deriving DecidableEq

namespace Date

def isLeap (year : Nat) : Bool :=
  year % 4 = 0 && (year % 100 ≠ 0 || year % 400 = 0)

def daysInYear (year : Nat) : Nat :=
  if isLeap year then 366 else 365

def daysInMonth (year month : Nat) : Nat :=
  if month = 2 then (if isLeap year then 29 else 28)
  else if month = 4 ∨ month = 6 ∨ month = 9 ∨ month = 11 then 30
  else 31

/-- Why three numbers are not a day. -/
inductive Fault where
  | year (year : Int)
  | month
  | day
deriving DecidableEq

def Fault.message : Fault → String
  | .year n => "year " ++ String.ofList (Digits.ofInt n) ++ " is out of range"
  | .month => "month must be in 1..12"
  | .day => "day is out of range for month"

def make (year month day : Int) : Except Fault Date :=
  if year < 1 ∨ 9999 < year then .error (.year year)
  else if month < 1 ∨ 12 < month then .error .month
  else if day < 1 ∨ daysInMonth year.toNat month.toNat < day then .error .day
  else .ok ⟨year.toNat, month.toNat, day.toNat⟩

/-- The number of the day within its year, counted from zero. -/
def yearDay (d : Date) : Nat :=
  ((List.range d.month).drop 1).foldl (fun n month => n + daysInMonth d.year month) (d.day - 1)

/-- The number of days since the first day of the year 1. -/
def count (d : Date) : Nat :=
  let y := d.year - 1
  365 * y + y / 4 - y / 100 + y / 400 + d.yearDay

/-- Days since the last Monday. -/
def sinceMonday (d : Date) : Nat :=
  d.count % 7

/-- Days since the last Sunday. -/
def sinceSunday (d : Date) : Nat :=
  (d.count + 1) % 7

/-- Complete weeks that began on a Sunday before the day after this one, in its year. -/
def sundayWeek (d : Date) : Nat :=
  (d.yearDay + 7 - d.sinceSunday) / 7

def mondayWeek (d : Date) : Nat :=
  (d.yearDay + 7 - d.sinceMonday) / 7

/-- The year and number of a week that runs from Monday to Sunday; a week belongs to the
year that its Thursday is in. -/
def weekOfThursday (d : Date) : Nat × Nat :=
  let thursday : Int := d.yearDay + 3 - d.sinceMonday
  let length : Int := daysInYear d.year
  if thursday < 0 then
    (d.year - 1, ((thursday + daysInYear (d.year - 1)) / 7).toNat + 1)
  else if length ≤ thursday then
    (d.year + 1, ((thursday - length) / 7).toNat + 1)
  else (d.year, (thursday / 7).toNat + 1)

end Date

end ModelData
