import ConfigEdit.Text.Digits

/-!
# Dates and times of TOML

A date, a time, or both with an optional offset from universal time.  `text`
writes them in one form: a `T` between date and time, a `Z` or hours and
minutes as the offset, and no zeros at the end of a fraction.

They are read as literals of a document, or from the text of a string
(`Datetime.ofText?`), where `TimeLimits` are wider.
-/

namespace ConfigEdit.Toml

/-- A day of the calendar. -/
structure Date where
  year : Nat
  month : Nat
  day : Nat
deriving DecidableEq, Repr

/-- A time of day. -/
structure Time where
  hour : Nat
  minute : Nat
  second : Nat
  nanosecond : Nat
deriving DecidableEq, Repr

/-- The distance from universal time. -/
inductive Offset where
  | universal
  | minutes (count : Int)
deriving DecidableEq, Repr

/-- Dates and times. -/
inductive Datetime where
  | date (date : Date)
  | time (time : Time)
  | both (date : Date) (time : Time) (offset : Option Offset)
deriving DecidableEq, Repr

/-- A year with a 29th of February. -/
def isLeapYear (year : Nat) : Bool :=
  year % 4 = 0 && (year % 100 ≠ 0 || year % 400 = 0)

/-- The number of days of a month. -/
def daysOfMonth (year month : Nat) : Nat :=
  if month = 2 then if isLeapYear year then 29 else 28
  else if month = 4 || month = 6 || month = 9 || month = 11 then 30
  else 31

namespace Date

/-- A date in digits. -/
def text (date : Date) : Text :=
  fixedDigits 10 4 date.year ++ '-' :: fixedDigits 10 2 date.month ++
    '-' :: fixedDigits 10 2 date.day

end Date

namespace Time

/-- The fraction of a second. -/
def fractionText (nanosecond : Nat) : Text :=
  if nanosecond = 0 then []
  else '.' ::
    ((fixedDigits 10 9 nanosecond).reverse.dropWhile (· = '0')).reverse

/-- A time in digits. -/
def text (time : Time) : Text :=
  fixedDigits 10 2 time.hour ++ ':' :: fixedDigits 10 2 time.minute ++
    ':' :: fixedDigits 10 2 time.second ++ fractionText time.nanosecond

end Time

namespace Offset

/-- An offset in digits. -/
def text : Offset → Text
  | universal => ['Z']
  | minutes count =>
      (if count < 0 then '-' else '+') ::
        fixedDigits 10 2 (count.natAbs / 60) ++
        ':' :: fixedDigits 10 2 (count.natAbs % 60)

end Offset

/-- A date or time in its one form. -/
def Datetime.text : Datetime → Text
  | date day => day.text
  | time moment => moment.text
  | both day moment offset =>
      day.text ++ 'T' :: moment.text ++ (offset.map Offset.text).getD []

/-- The greatest hour of a time, and the greatest hours and minutes of an offset
as they are written. -/
structure TimeLimits where
  hour : Nat
  offsetHours : Nat
  offsetMinutes : Nat
deriving DecidableEq, Repr

/-- The limits in a literal. -/
def TimeLimits.literal : TimeLimits := ⟨23, 23, 59⟩

/-- The limits in a string.  Any two digits can be written in an offset. -/
def TimeLimits.string : TimeLimits := ⟨24, 99, 99⟩

/-- The greatest offset, in minutes: one day. -/
def maxOffset : Nat := 1440

/-- A number in `count` digits between two bounds, and what follows it. -/
def readField? (count least most : Nat) (text : Text) : Option (Nat × Text) :=
  let digits := text.take count
  if digits.length = count then
    match natOfDigits? 10 digits with
    | some value =>
        if least ≤ value && value ≤ most then some (value, text.drop count)
        else none
    | none => none
  else none

/-- What follows a character. -/
def skipCharacter? (expected : Char) : Text → Option Text
  | [] => none
  | character :: rest => if character = expected then some rest else none

/-- A date, and what follows it. -/
def readDate? (text : Text) : Option (Date × Text) := do
  let (year, rest) ← readField? 4 0 9999 text
  let rest ← skipCharacter? '-' rest
  let (month, rest) ← readField? 2 1 12 rest
  let rest ← skipCharacter? '-' rest
  let (day, rest) ← readField? 2 1 (daysOfMonth year month) rest
  return (⟨year, month, day⟩, rest)

/-- The nanoseconds of a fraction behind its point: of its digits the first
nine count, and missing ones are zeros. -/
def nanosecondsOf (digits : Text) : Nat :=
  let counted : Text := digits.take 9
  (natOfDigits? 10 (counted ++ List.replicate (9 - counted.length) '0')).getD 0

/-- The fraction of a second, if there is one, and what follows it. -/
def readFraction (text : Text) : Nat × Text :=
  match text with
  | '.' :: rest =>
      let digits := rest.takeWhile Char.isDigit
      if digits.isEmpty then (0, text)
      else (nanosecondsOf digits, rest.dropWhile Char.isDigit)
  | _ => (0, text)

/-- A time, and what follows it.  A minute can have a 60th second. -/
def readTime? (limits : TimeLimits) (text : Text) : Option (Time × Text) := do
  let (hour, rest) ← readField? 2 0 limits.hour text
  let rest ← skipCharacter? ':' rest
  let (minute, rest) ← readField? 2 0 59 rest
  let rest ← skipCharacter? ':' rest
  let (second, rest) ← readField? 2 0 60 rest
  let (nanosecond, rest) := readFraction rest
  return (⟨hour, minute, second, nanosecond⟩, rest)

/-- The hours and minutes of an offset as minutes, and what follows them. -/
def readOffsetMinutes? (limits : TimeLimits)
    (text : Text) : Option (Int × Text) := do
  let (hours, rest) ← readField? 2 0 limits.offsetHours text
  let rest ← skipCharacter? ':' rest
  let (minutes, rest) ← readField? 2 0 limits.offsetMinutes rest
  if 60 * hours + minutes ≤ maxOffset then
    some (Int.ofNat (60 * hours + minutes), rest)
  else none

/-- An offset, and what follows it. -/
def readOffset? (limits : TimeLimits) : Text → Option (Offset × Text)
  | [] => none
  | mark :: rest =>
      if mark = 'Z' || mark = 'z' then some (.universal, rest)
      else if mark = '+' then
        (readOffsetMinutes? limits rest).map
          fun (count, rest) => (.minutes count, rest)
      else if mark = '-' then
        (readOffsetMinutes? limits rest).map
          fun (count, rest) => (.minutes (-count), rest)
      else none

/-- A time behind its mark `T` or a space. -/
def readTimeBehind? (limits : TimeLimits) : Text → Option (Time × Text)
  | [] => none
  | mark :: rest =>
      if mark = 'T' || mark = 't' || mark = ' ' then readTime? limits rest
      else none

/-- A date or time, and what follows it. -/
def readDatetime? (limits : TimeLimits)
    (text : Text) : Option (Datetime × Text) :=
  match readDate? text with
  | none => (readTime? limits text).map fun (time, rest) => (.time time, rest)
  | some (date, afterDate) =>
      match readTimeBehind? limits afterDate with
      | none => some (.date date, afterDate)
      | some (time, afterTime) =>
          match readOffset? limits afterTime with
          | some (offset, rest) => some (.both date time (some offset), rest)
          | none => some (.both date time none, afterTime)

/-- The date or time that a whole text spells. -/
def Datetime.ofText? (text : Text) : Option Datetime :=
  match readDatetime? .string text with
  | some (value, []) => some value
  | _ => none

end ConfigEdit.Toml
