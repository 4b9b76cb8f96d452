import Eventd.Lib.Decimal
import Eventd.Lib.TextSlice
import Eventd.Query.Equality

/-!
# The time range of a query

`eventd/src/query/executor/time.rs`: what `SINCE` and `UNTIL` mean at an evaluation time.
All arithmetic is on 64-bit signed integers, and leaving their range is an error.

* `TimeExpr`, `resolveTime`, `timeRange`;
* `parseAbsoluteTime`: a date, or a date and a time, in UTC.
-/

namespace Eventd

open TextSlice Decimal

/-- A result of checked arithmetic on `i64`. -/
def checkedI64 (value : ℤ) : Option ℤ :=
  if -(i64Max : ℤ) - 1 ≤ value ∧ value ≤ i64Max then some value else none

/-- A sum of `i64`s that stays in range. -/
def saturatingAdd (a b : ℤ) : ℤ := max (-(i64Max : ℤ) - 1) (min i64Max (a + b))

/-- A difference of `i64`s that stays in range. -/
def saturatingSub (a b : ℤ) : ℤ := max (-(i64Max : ℤ) - 1) (min i64Max (a - b))

/-- A point in time as a query gives it. -/
inductive TimeExpr
  | relative (nanoseconds : ℕ) (future : Bool)
  | today
  | yesterday
  | absolute (text : String)
  deriving DecidableEq

def nanosecondsPerDay : ℤ := 86400000000000

def daysInMonth (year month : ℤ) : ℤ :=
  if month = 2 then
    if year % 4 = 0 ∧ (year % 100 ≠ 0 ∨ year % 400 = 0) then 29 else 28
  else if month ∈ ([4, 6, 9, 11] : List ℤ) then 30
  else 31

/-- Days from 1970-01-01 to a date of the proleptic Gregorian calendar. -/
def daysFromCivil (year month day : ℤ) : ℤ :=
  let year := year - if month ≤ 2 then 1 else 0
  let era := year / 400
  let yearOfEra := year - era * 400
  let shiftedMonth := month + if month > 2 then -3 else 9
  let dayOfYear := (153 * shiftedMonth + 2) / 5 + day - 1
  let dayOfEra := yearOfEra * 365 + yearOfEra / 4 - yearOfEra / 100 + dayOfYear
  era * 146097 + dayOfEra - 719468

/-- The number that decimal digits denote. -/
def parseDigits (digits : List UInt8) : Option ℤ :=
  if digits ≠ [] ∧ digits.all isDigit then some (Decimal.decimal digits) else none

/-- The integer that a short piece of a text denotes; a sign may precede the digits. -/
def parseInteger : List UInt8 → Option ℤ
  | [] => none
  | first :: digits =>
    if first = 0x2d then (parseDigits digits).map fun value => -value
    else if first = 0x2b then parseDigits digits
    else parseDigits (first :: digits)

/-- Why a text has no time. -/
inductive TimeFailure
  | invalidTime
  /-- The text is cut inside a character or beyond its end, which stops the thread. -/
  | cut
  deriving DecidableEq

/-- The integer between two positions of a text. -/
def integerAt (text : String) (first last : ℕ) : Except TimeFailure ℤ :=
  match slice (bytesOf text) first last with
  | none => .error .cut
  | some field =>
    match parseInteger field with
    | none => .error .invalidTime
    | some value => .ok value

/-- The hour, minute and second of a text; a date alone is its midnight. -/
def clockOf (text : String) : Except TimeFailure (ℤ × ℤ × ℤ) :=
  if (bytesOf text).length = 19 then do
    let hour ← integerAt text 11 13
    let minute ← integerAt text 14 16
    let second ← integerAt text 17 19
    return (hour, minute, second)
  else return (0, 0, 0)

/-- Nanoseconds from the epoch to a date and a time of day. -/
def nanosecondsOf (days hour minute second : ℤ) : Option ℤ := do
  let days ← checkedI64 (days * 86400)
  let seconds ← checkedI64 (days + (hour * 3600 + minute * 60 + second))
  checkedI64 (seconds * 1000000000)

/-- Nanoseconds from the epoch to a date, or a date and a time.  The parser has already
checked the widths and the separators. -/
def parseAbsoluteTime (text : String) : Except TimeFailure ℤ := do
  let year ← integerAt text 0 4
  let month ← integerAt text 5 7
  let day ← integerAt text 8 10
  if ¬ (1 ≤ month ∧ month ≤ 12) ∨ ¬ (1 ≤ day ∧ day ≤ daysInMonth year month) then
    throw .invalidTime
  let (hour, minute, second) ← clockOf text
  if ¬ (0 ≤ hour ∧ hour ≤ 23) ∨ ¬ (0 ≤ minute ∧ minute ≤ 59) ∨ ¬ (0 ≤ second ∧ second ≤ 59) then
    throw .invalidTime
  match nanosecondsOf (daysFromCivil year month day) hour minute second with
  | none => throw .invalidTime
  | some time => return time

/-- The point in time meant at an evaluation time; nothing if it is out of range.  A text that
the parser accepts as a time is never cut. -/
def resolveTime (evaluation : ℤ) : TimeExpr → Option ℤ
  | .relative nanoseconds future => do
      let delta ← checkedI64 nanoseconds
      checkedI64 (if future then evaluation + delta else evaluation - delta)
  | .today => some (evaluation / nanosecondsPerDay * nanosecondsPerDay)
  | .yesterday => some (evaluation / nanosecondsPerDay * nanosecondsPerDay - nanosecondsPerDay)
  | .absolute text => (parseAbsoluteTime text).toOption

/-- From where until where a query looks: by default from the epoch until now. -/
def timeRange (since until_ : Option TimeExpr) (evaluation : ℤ) : Option (ℤ × ℤ) := do
  let since ← since.elim (some 0) (resolveTime evaluation)
  let until_ ← until_.elim (some evaluation) (resolveTime evaluation)
  return (since, until_)

/-- Without an end, a query looks until the time it is evaluated. -/
theorem timeRange_none {since : Option TimeExpr} {evaluation : ℤ} :
    timeRange since none evaluation =
      (since.elim (some 0) (resolveTime evaluation)).map fun since => (since, evaluation) := by
  unfold timeRange
  cases since.elim (some 0) (resolveTime evaluation) <;> rfl

example : parseAbsoluteTime "1970-01-01" = .ok 0 := by rfl
example : parseAbsoluteTime "2024-02-29T12:00:00" = .ok 1709208000000000000 := by rfl
example : parseAbsoluteTime "2025-02-29" = .error .invalidTime := by rfl
example : parseAbsoluteTime "197" = .error .cut := by rfl

end Eventd
