import WireSchema.Text.Basic

/-!
# Dates and times of day

A moment is a number of seconds since the start of 1970. Log lines show it as a date and a time, or
as a time of day.
-/

namespace WireSchema

/-- Seconds since the start of 1970, in coordinated universal time. -/
structure Moment where
  seconds : Int
  deriving DecidableEq, Repr

namespace Moment

def twoDigits (n : Nat) : Text := if n < 10 then "0" ++ Text.ofNat n else Text.ofNat n

def fourDigits (n : Nat) : Text :=
  if n < 10 then "000" ++ Text.ofNat n
  else if n < 100 then "00" ++ Text.ofNat n
  else if n < 1000 then "0" ++ Text.ofNat n
  else Text.ofNat n

def secondOfDay (m : Moment) : Nat := (m.seconds % 86400).toNat

/-- Year, month and day. The count goes by eras of 400 years that begin in March, so that a leap day
is the last day of its year. -/
def date (m : Moment) : Nat × Nat × Nat :=
  let days := m.seconds / 86400 + 719468
  let era := days / 146097
  let dayOfEra := (days % 146097).toNat
  let yearOfEra :=
    (dayOfEra - dayOfEra / 1460 + dayOfEra / 36524 - dayOfEra / 146096) / 365
  let dayOfYear := dayOfEra - (365 * yearOfEra + yearOfEra / 4 - yearOfEra / 100)
  let shifted := (5 * dayOfYear + 2) / 153
  let day := dayOfYear - (153 * shifted + 2) / 5 + 1
  let month := if shifted < 10 then shifted + 3 else shifted - 9
  let year := (yearOfEra : Int) + era * 400 + (if month ≤ 2 then 1 else 0)
  (year.toNat, month, day)

/-- Date and time, as `2000-01-01T00:00:00Z`. -/
def stamp (m : Moment) : Text :=
  let (year, month, day) := m.date
  let s := m.secondOfDay
  fourDigits year ++ "-" ++ twoDigits month ++ "-" ++ twoDigits day ++ "T"
    ++ twoDigits (s / 3600) ++ ":" ++ twoDigits (s / 60 % 60) ++ ":" ++ twoDigits (s % 60) ++ "Z"

/-- The time of day, as `3:04PM`. -/
def kitchen (m : Moment) : Text :=
  let s := m.secondOfDay
  let hour := s / 3600
  let shown := if hour % 12 == 0 then 12 else hour % 12
  let half : Text := if hour < 12 then "AM" else "PM"
  Text.ofNat shown ++ ":" ++ twoDigits (s / 60 % 60) ++ half

example : (Moment.mk 946684800).stamp = "2000-01-01T00:00:00Z" := by decide

example : (Moment.mk 951825599).stamp = "2000-02-29T11:59:59Z" := by decide

example : (Moment.mk 951825600).kitchen = "12:00PM" := by decide

end Moment

end WireSchema
