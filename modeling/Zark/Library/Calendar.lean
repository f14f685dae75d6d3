import Mathlib

/-!
# The Gregorian calendar over unix time

Days are counted in cycles of 400 years from the first of March, so that the leap day ends a year
and both conversions are integer arithmetic.
-/

namespace Calendar

/-- Seconds of a day. -/
def secondsPerDay : ℕ := 86400

structure Date where
  year : ℕ
  month : ℕ
  day : ℕ
  deriving DecidableEq, Repr

/-- The date `n` days after the first of January 1970. -/
def ofDays (n : ℕ) : Date :=
  let shifted := n + 719468
  let cycle := shifted / 146097
  let dayOfCycle := shifted - cycle * 146097
  let yearOfCycle :=
    (dayOfCycle - dayOfCycle / 1460 + dayOfCycle / 36524 - dayOfCycle / 146096) / 365
  let dayOfYear := dayOfCycle - (365 * yearOfCycle + yearOfCycle / 4 - yearOfCycle / 100)
  let shiftedMonth := (5 * dayOfYear + 2) / 153
  let month := if shiftedMonth < 10 then shiftedMonth + 3 else shiftedMonth - 9
  { year := yearOfCycle + cycle * 400 + (if month ≤ 2 then 1 else 0)
    month := month
    day := dayOfYear - (153 * shiftedMonth + 2) / 5 + 1 }

/-- The date of a unix time. -/
def ofSeconds (t : ℕ) : Date := ofDays (t / secondsPerDay)

def isLeap (year : ℕ) : Bool := year % 4 == 0 && (year % 100 != 0 || year % 400 == 0)

def daysInMonth (year month : ℕ) : ℕ :=
  if month = 2 then (if isLeap year then 29 else 28)
  else if month = 4 ∨ month = 6 ∨ month = 9 ∨ month = 11 then 30 else 31

/-- The dates the calendar has, from year 1 on. -/
def Date.valid (d : Date) : Bool :=
  decide (1 ≤ d.year ∧ 1 ≤ d.month ∧ d.month ≤ 12 ∧ 1 ≤ d.day ∧ d.day ≤ daysInMonth d.year d.month)

/-- Days from the first of January 1970, negative before it. -/
def Date.toDays (d : Date) : ℤ :=
  let year : ℤ := if d.month ≤ 2 then (d.year : ℤ) - 1 else d.year
  let cycle := year / 400
  let yearOfCycle := year - cycle * 400
  let shiftedMonth : ℤ := if d.month > 2 then (d.month : ℤ) - 3 else (d.month : ℤ) + 9
  let dayOfYear := (153 * shiftedMonth + 2) / 5 + (d.day : ℤ) - 1
  cycle * 146097 + yearOfCycle * 365 + yearOfCycle / 4 - yearOfCycle / 100 + dayOfYear - 719468

example : ofSeconds 951782400 = ⟨2000, 2, 29⟩ := by decide

example : (Date.toDays ⟨2000, 2, 29⟩) * 86400 = 951782400 := by decide

end Calendar
