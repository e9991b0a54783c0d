-- SUMMARY: The Gregorian calendar behind gmtime.
import Mathlib.Data.Int.Basic

/-!
# Calendar time

`gmtime` splits seconds into the day of the Gregorian calendar and the minute of that day. Years are
counted from the first of March, so that the leap day is the last day of its year.
-/

namespace Calendar

/-- A date, with the month from 0 to 11 and the day of the year from 0 to 365. -/
structure Date where
  year : Int
  mon : Nat
  mday : Nat
  yday : Nat
deriving DecidableEq

def isLeap (year : Int) : Bool := year % 4 == 0 && (year % 100 != 0 || year % 400 == 0)

/-- The year within a cycle of 400 years, from the day within the cycle. -/
def yearOfCycle (day : Nat) : Nat := (day - day / 1460 + day / 36524 - day / 146096) / 365

/-- The date of a day, counted from the first of January 1970. -/
def dateOfDay (day : Int) : Date :=
  -- the first cycle starts on the first of March of the year 0
  let shifted := day + 719468
  let inCycle := (shifted % 146097).toNat
  let yearInCycle := yearOfCycle inCycle
  let inYear := inCycle - (365 * yearInCycle + yearInCycle / 4 - yearInCycle / 100)
  let month := (5 * inYear + 2) / 153
  let year := shifted / 146097 * 400 + yearInCycle + if month < 10 then 0 else 1
  { year := year
    mon := if month < 10 then month + 2 else month - 10
    mday := inYear - (153 * month + 2) / 5 + 1
    yday := if month < 10 then inYear + 59 + (if isLeap year then 1 else 0) else inYear - 306 }

example : dateOfDay 0 = ⟨1970, 0, 1, 0⟩ ∧ dateOfDay 11016 = ⟨2000, 1, 29, 59⟩ ∧
    dateOfDay 20088 = ⟨2024, 11, 31, 365⟩ ∧ dateOfDay (-1) = ⟨1969, 11, 31, 364⟩ := by decide

/-- `struct tm`, without the seconds. The week starts with Sunday as 0. -/
structure Tm where
  date : Date
  hour : Nat
  min : Nat
  wday : Nat
deriving DecidableEq

/-- `gmtime_r`. -/
def gmtime (sec : Int) : Tm :=
  { date := dateOfDay (sec / 86400)
    hour := (sec % 86400).toNat / 3600
    min := (sec % 86400).toNat / 60 % 60
    wday := ((sec / 86400 + 4) % 7).toNat }

example : gmtime 1767225600 = ⟨⟨2026, 0, 1, 0⟩, 0, 0, 4⟩ := by decide

/-- The broken-down time does not change within a minute. -/
theorem gmtime_minute (sec : Int) : gmtime (60 * (sec / 60)) = gmtime sec := by
  have hday : 60 * (sec / 60) / 86400 = sec / 86400 := by omega
  have hhour : (60 * (sec / 60) % 86400).toNat / 3600 = (sec % 86400).toNat / 3600 := by omega
  have hmin : (60 * (sec / 60) % 86400).toNat / 60 % 60 = (sec % 86400).toNat / 60 % 60 := by omega
  rw [gmtime, gmtime, hday, hhour, hmin]

end Calendar
