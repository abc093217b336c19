import ContentQuery.Chars.Blank
import ContentQuery.Chars.Unsigned

/-!
# Timestamps

Reads a date and time of day with an offset from UTC, `2010-01-01T00:00:00+02:00`, as whole seconds
since 1970.  Blanks may stand between the parts, a space may take the place of the `T`, and the
offset is `Z`, `UTC` or a signed number of hours and minutes.  A fraction of a second is dropped,
and a leap second counts as the second before it.
-/

namespace ContentQuery
namespace Timestamp

/-! ## Calendar -/

def isLeapYear (year : Int) : Bool :=
  year % 4 == 0 && (year % 100 != 0 || year % 400 == 0)

def daysInMonth (year : Int) (month : Nat) : Nat :=
  if month = 2 then (if isLeapYear year then 29 else 28)
  else if month ∈ [4, 6, 9, 11] then 30
  else 31

/-- Days from the beginning of the proleptic Gregorian year 1 to that of `year`. -/
def daysBeforeYear (year : Int) : Int :=
  let y := year - 1
  365 * y + y / 4 - y / 100 + y / 400

def daysBeforeMonth (year : Int) (month : Nat) : Nat :=
  (List.range (month - 1)).foldl (fun days m => days + daysInMonth year (m + 1)) 0

/-- Days since the first of January 1970. -/
def dayNumber (year : Int) (month day : Nat) : Int :=
  daysBeforeYear year - daysBeforeYear 1970 + (daysBeforeMonth year month : Int) + day - 1

/-- The years that a date may have. -/
def firstYear : Int := -262143

def lastYear : Int := 262142

/-! ## Reading -/

/-- Reads between one and `width` digits. -/
def number? (width : Nat) (s : List Char) : Option (Nat × List Char) := do
  let digits := (s.takeWhile Char.isDigit).take width
  if digits.isEmpty then none
  else do
    let n ← Chars.digitsValue? 0 digits
    return (n, s.drop digits.length)

/-- Reads a number from `low` to `high` of at most two digits, after blanks. -/
def field? (low high : Nat) (s : List Char) : Option (Nat × List Char) := do
  let (n, rest) ← number? 2 (Chars.trimStart s)
  if low ≤ n && n ≤ high then some (n, rest) else none

/-- Reads a year: four digits, or any number of them after a sign. -/
def year? (s : List Char) : Option (Int × List Char) :=
  match Chars.trimStart s with
  | '-' :: rest => (number? rest.length rest).map fun r => (-(r.1 : Int), r.2)
  | '+' :: rest => (number? rest.length rest).map fun r => ((r.1 : Int), r.2)
  | rest => (number? 4 rest).map fun r => ((r.1 : Int), r.2)

/-- Reads `c`, after blanks. -/
def mark? (c : Char) (s : List Char) : Option (List Char) :=
  match Chars.trimStart s with
  | d :: rest => if d = c then some rest else none
  | [] => none

/-- Skips the fraction of a second. -/
def skipFraction? : List Char → Option (List Char)
  | '.' :: rest =>
      if (rest.takeWhile Char.isDigit).isEmpty then none else some (rest.dropWhile Char.isDigit)
  | s => some s

/-- Reads the minutes of an offset, two digits. -/
def offsetMinutes? : List Char → Option (Nat × List Char)
  | a :: b :: rest => do
      let tens ← Chars.digit? a
      let ones ← Chars.digit? b
      if tens ≤ 5 then some (10 * tens + ones, rest) else none
  | _ => none

/-- Reads hours and minutes after the sign of an offset; colons and blanks may stand between. -/
def offsetSeconds? : List Char → Option (Nat × List Char)
  | a :: b :: rest => do
      let tens ← Chars.digit? a
      let ones ← Chars.digit? b
      let (minutes, rest) ← offsetMinutes? (rest.dropWhile fun c => c == ':' || Chars.isBlank c)
      return ((10 * tens + ones) * 3600 + minutes * 60, rest)
  | _ => none

/-- Reads an offset in seconds. -/
def offset? (s : List Char) : Option (Int × List Char) :=
  if (s.take 3).map Char.toUpper = ['U', 'T', 'C'] then some (0, s.drop 3)
  else match s with
    | 'Z' :: rest | 'z' :: rest => some (0, rest)
    | '+' :: rest => (offsetSeconds? rest).map fun r => ((r.1 : Int), r.2)
    | '-' :: rest | '\u2212' :: rest => (offsetSeconds? rest).map fun r => (-(r.1 : Int), r.2)
    | _ => none

/-- Whole seconds since 1970, for a date that the calendar has and an offset of less than a day;
neither the date nor its form in UTC may leave the range of years. -/
def seconds? (year : Int) (month day secondOfDay : Nat) (offset : Int) : Option Int :=
  let seconds := dayNumber year month day * 86400 + secondOfDay - offset
  if year < firstYear ∨ lastYear < year ∨ daysInMonth year month < day then none
  else if offset ≤ -86400 ∨ 86400 ≤ offset then none
  else if seconds < dayNumber firstYear 1 1 * 86400 then none
  else if dayNumber (lastYear + 1) 1 1 * 86400 ≤ seconds then none
  else some seconds

/-- Reads a timestamp as whole seconds since 1970. -/
def read? (text : String) : Option Int := do
  let (year, s) ← year? text.toList
  let s ← mark? '-' s
  let (month, s) ← field? 1 12 s
  let s ← mark? '-' s
  let (day, s) ← field? 1 31 s
  let s ← match s with
    | 'T' :: s | 't' :: s | ' ' :: s => some s
    | _ => none
  let (hour, s) ← field? 0 23 s
  let s ← mark? ':' s
  let (minute, s) ← field? 0 59 s
  let s ← mark? ':' s
  let (second, s) ← field? 0 60 s
  let s ← skipFraction? s
  let (offset, s) ← offset? (Chars.trimStart s)
  if (Chars.trimStart s).isEmpty then
    seconds? year month day (hour * 3600 + minute * 60 + min second 59) offset
  else none

end Timestamp
end ContentQuery
