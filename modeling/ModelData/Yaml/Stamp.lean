import ModelData.Misfit

/-!
Days and moments as they are spelled. A day is a year, a month and a day of the month with
dashes between them; a moment goes on with a time of day, behind a letter or blanks, and
perhaps a fraction of a second and a zone. Numbers may be out of range; then they stand for
no day or moment.
-/

namespace ModelData.Yaml

structure Clock where
  hour : Nat
  minute : Nat
  second : Nat
  microsecond : Nat
  /-- Seconds east of universal time. -/
  offset : Option Int

structure Stamp where
  year : Nat
  month : Nat
  day : Nat
  clock : Option Clock

/-- Takes a number of some digits, and one digit more if it follows at once and is allowed. -/
def takeNumber? (digits : Nat) (oneMore : Bool) (cs : List Char) : Option (Nat × List Char) :=
  let size := (cs.takeWhile Char.isDigit).length
  if size < digits then none
  else
    let taken := if oneMore && digits < size then digits + 1 else digits
    some (Digits.toNat (cs.take taken), cs.drop taken)

def dropChar? (c : Char) : List Char → Option (List Char)
  | d :: rest => if d = c then some rest else none
  | [] => none

def isGap (c : Char) : Bool :=
  c = ' ' || c = '\t'

/-- A point and digits, of which the first six count. -/
def takeFraction : List Char → Nat × List Char
  | '.' :: rest =>
    let digits := rest.takeWhile Char.isDigit
    (Digits.toNat ((digits ++ List.replicate 6 '0').take 6), rest.drop digits.length)
  | cs => (0, cs)

/-- A zone: nothing, the letter of universal time, or a sign with hours and perhaps minutes. -/
def readZone? (cs : List Char) : Option (Option Int) :=
  match cs, cs.dropWhile isGap with
  | [], _ => some none
  | _, ['Z'] => some (some 0)
  | _, '-' :: rest => (distance? rest).map fun n => some (-n)
  | _, '+' :: rest => (distance? rest).map some
  | _, _ => none
where
  distance? (cs : List Char) : Option Int := do
    let (hours, rest) ← takeNumber? 1 true cs
    match rest with
    | [] => return hours * 3600
    | ':' :: rest =>
      let (minutes, rest) ← takeNumber? 2 false rest
      if rest.isEmpty then return hours * 3600 + minutes * 60 else none
    | _ => none

def readClock? (cs : List Char) : Option Clock := do
  let (hour, cs) ← takeNumber? 1 true cs
  let (minute, cs) ← takeNumber? 2 false (← dropChar? ':' cs)
  let (second, cs) ← takeNumber? 2 false (← dropChar? ':' cs)
  let (microsecond, cs) := takeFraction cs
  return ⟨hour, minute, second, microsecond, ← readZone? cs⟩

/-- Reads a day or a moment; months and days of the month may have one digit. -/
def readStamp? (cs : List Char) : Option Stamp := do
  let (year, cs) ← takeNumber? 4 false cs
  let (month, cs) ← takeNumber? 1 true (← dropChar? '-' cs)
  let (day, cs) ← takeNumber? 1 true (← dropChar? '-' cs)
  match cs with
  | [] => return ⟨year, month, day, none⟩
  | c :: rest =>
    if c = 'T' || c = 't' then return ⟨year, month, day, some (← readClock? rest)⟩
    else if isGap c then
      return ⟨year, month, day, some (← readClock? (rest.dropWhile isGap))⟩
    else none

def isMoment (cs : List Char) : Bool :=
  (readStamp? cs).any (·.clock.isSome)

/-- A day as it may stand without a tag: ten characters, two of them for each of the last two
numbers. -/
def isDate (cs : List Char) : Bool :=
  cs.length = 10 && (readStamp? cs).any (·.clock.isNone)

/-- What a day or a moment stands for. -/
def Stamp.value (s : Stamp) : Except Misfit Value :=
  match s.clock with
  | none => ((Date.make s.year s.month s.day).map Value.date).mapError .date
  | some c =>
    ((Moment.make s.year s.month s.day c.hour c.minute c.second c.microsecond c.offset none).map
      Value.moment).mapError .moment

end ModelData.Yaml
