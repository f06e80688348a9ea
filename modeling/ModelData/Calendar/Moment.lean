import ModelData.Calendar.Date

/-!
Moments and their patterns. A moment is a day, a time of day, and possibly a distance from
universal time with a name for the zone. A pattern is text in which a percent sign and a
letter stand for a part of the moment; a sign before any other character stands for itself.
-/

namespace ModelData

structure Moment where
  date : Date
  hour : Nat
  minute : Nat
  second : Nat
  microsecond : Nat
  /-- Seconds east of universal time. -/
  offset : Option Int
  zone : Option String
deriving DecidableEq

namespace Moment

/-- Why some numbers are no moment. -/
inductive Fault where
  | date (f : Date.Fault)
  /-- A part of the time of day, with its largest value. -/
  | part (name : String) (last : Nat)
  | offset (seconds : Int)
deriving DecidableEq

/-- A distance in time by its days and the seconds left over, without parts that are zero. -/
def spanText (seconds : Int) : String :=
  let part (name : String) (n : Int) : List String :=
    if n = 0 then [] else [name ++ "=" ++ String.ofList (Digits.ofInt n)]
  "datetime.timedelta("
    ++ ", ".intercalate (part "days" (seconds / 86400) ++ part "seconds" (seconds % 86400)) ++ ")"

def Fault.message : Fault → String
  | .date f => f.message
  | .part name last => name ++ " must be in 0.." ++ String.ofList (Digits.ofNat last)
  | .offset seconds =>
    "offset must be a timedelta strictly between -timedelta(hours=24) and timedelta(hours=24), not "
      ++ spanText seconds ++ "."

/-- A part of the time of day, which counts from zero. -/
def makePart (name : String) (last : Nat) (n : Int) : Except Fault Nat :=
  if 0 ≤ n ∧ n ≤ last then .ok n.toNat else .error (.part name last)

/-- The distance from universal time, which is less than a day. -/
def makeOffset (seconds : Int) : Except Fault Int :=
  if seconds.natAbs < 86400 then .ok seconds else .error (.offset seconds)

/-- The moment with these parts; the distance from universal time is looked at first. -/
def make (year month day hour minute second microsecond : Int) (offset : Option Int)
    (zone : Option String) : Except Fault Moment := do
  let offset ← offset.mapM makeOffset
  let date ← (Date.make year month day).mapError .date
  return ⟨date, ← makePart "hour" 23 hour, ← makePart "minute" 59 minute,
    ← makePart "second" 59 second, ← makePart "microsecond" 999999 microsecond, offset, zone⟩

/-- Whether the distance from universal time is known. -/
def isPlaced (m : Moment) : Bool :=
  m.offset.isSome

/-- The microseconds since the start of the first day of the year 1, in universal time if the
distance from it is known. -/
def elapsed (m : Moment) : Int :=
  let clock : Int := m.hour * 3600 + m.minute * 60 + m.second
  (m.date.count * 86400 + clock - m.offset.getD 0) * 1000000 + m.microsecond

def dayNames : List String :=
  ["Monday", "Tuesday", "Wednesday", "Thursday", "Friday", "Saturday", "Sunday"]

def monthNames : List String :=
  ["January", "February", "March", "April", "May", "June", "July", "August", "September",
    "October", "November", "December"]

def dayName (m : Moment) : List Char :=
  (dayNames.getD m.date.sinceMonday "").toList

def monthName (m : Moment) : List Char :=
  (monthNames.getD (m.date.month - 1) "").toList

/-- Digits filled up with a character on the left. -/
def filled (width : Nat) (fill : Char) (n : Nat) : List Char :=
  List.leftpad width fill (Digits.ofNat n)

def two (n : Nat) : List Char :=
  filled 2 '0' n

/-- The distance from universal time; the separator stands between hours, minutes and seconds,
and seconds appear when there are any. -/
def offsetText (separator : List Char) (offset : Int) : List Char :=
  let seconds := offset.natAbs
  (if offset < 0 then '-' else '+') :: two (seconds / 3600) ++ separator
    ++ two (seconds / 60 % 60)
    ++ (if seconds % 60 = 0 then [] else separator ++ two (seconds % 60))

def zoneText (m : Moment) : List Char :=
  match m.offset, m.zone with
  | none, _ => []
  | some _, some name => name.toList
  | some 0, none => "UTC".toList
  | some offset, none => "UTC".toList ++ offsetText [':'] offset

def hourOfTwelve (m : Moment) : Nat :=
  if m.hour % 12 = 0 then 12 else m.hour % 12

/-- What a letter after a percent sign stands for. -/
def part? (m : Moment) (letter : Char) : Option (List Char) :=
  let year := Digits.ofNat m.date.year
  let month := two m.date.month
  let day := two m.date.day
  let shortYear := two (m.date.year % 100)
  let clock := two m.hour ++ ':' :: two m.minute
  let time := clock ++ ':' :: two m.second
  let half := if m.hour < 12 then "AM" else "PM"
  match letter with
  | 'Y' => some year
  | 'm' => some month
  | 'd' => some day
  | 'H' => some (two m.hour)
  | 'M' => some (two m.minute)
  | 'S' => some (two m.second)
  | 'f' => some (filled 6 '0' m.microsecond)
  | 'z' => some (m.offset.elim [] (offsetText []))
  | 'Z' => some m.zoneText
  | 'y' => some shortYear
  | 'C' => some (Digits.ofNat (m.date.year / 100))
  | 'e' => some (filled 2 ' ' m.date.day)
  | 'k' => some (filled 2 ' ' m.hour)
  | 'l' => some (filled 2 ' ' m.hourOfTwelve)
  | 'I' => some (two m.hourOfTwelve)
  | 'p' => some half.toList
  | 'P' => some half.toLower.toList
  | 'j' => some (filled 3 '0' (m.date.yearDay + 1))
  | 'U' => some (two m.date.sundayWeek)
  | 'W' => some (two m.date.mondayWeek)
  | 'w' => some (Digits.ofNat m.date.sinceSunday)
  | 'u' => some (Digits.ofNat (m.date.sinceMonday + 1))
  | 'G' => some (Digits.ofNat m.date.weekOfThursday.1)
  | 'g' => some (two (m.date.weekOfThursday.1 % 100))
  | 'V' => some (two m.date.weekOfThursday.2)
  | 'a' => some (m.dayName.take 3)
  | 'A' => some m.dayName
  | 'b' | 'h' => some (m.monthName.take 3)
  | 'B' => some m.monthName
  | 'T' | 'X' => some time
  | 'R' => some clock
  | 'r' => some (two m.hourOfTwelve ++ ':' :: two m.minute ++ ':' :: two m.second ++ ' ' :: half.toList)
  | 'D' | 'x' => some (month ++ '/' :: day ++ '/' :: shortYear)
  | 'F' => some (year ++ '-' :: month ++ '-' :: day)
  | 'c' => some (m.dayName.take 3 ++ ' ' :: m.monthName.take 3 ++ ' ' :: filled 2 ' ' m.date.day
      ++ ' ' :: time ++ ' ' :: year)
  | 'n' => some ['\n']
  | 't' => some ['\t']
  | '%' => some ['%']
  | _ => none

def fillPattern (m : Moment) : List Char → List Char
  | '%' :: letter :: rest =>
    match m.part? letter with
    | some text => text ++ fillPattern m rest
    | none => '%' :: letter :: fillPattern m rest
  | c :: rest => c :: fillPattern m rest
  | [] => []

/-- Fills in a pattern; the text ends at a character of code zero. -/
def format (m : Moment) (pattern : String) : String :=
  String.ofList ((m.fillPattern pattern.toList).takeWhile (· ≠ '\x00'))

end Moment

end ModelData
