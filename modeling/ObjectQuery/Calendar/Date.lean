/-!
# Calendar dates

Days of the Gregorian calendar, extended backwards, in the years 1 to 9999. Days are also numbered
from the first day of year 1, which was a Monday.
-/

set_option autoImplicit false

namespace ObjectQuery

namespace Date

def isLeap (year : Nat) : Bool :=
  year % 4 = 0 && (year % 100 ≠ 0 || year % 400 = 0)

def daysInMonth (year month : Nat) : Nat :=
  if month = 2 then (if isLeap year then 29 else 28)
  else if month = 4 ∨ month = 6 ∨ month = 9 ∨ month = 11 then 30
  else 31

def daysInYear (year : Nat) : Nat := if isLeap year then 366 else 365

def lastYear : Nat := 9999

abbrev IsDay (year month day : Nat) : Prop :=
  (1 ≤ year ∧ year ≤ lastYear) ∧ (1 ≤ month ∧ month ≤ 12) ∧ 1 ≤ day ∧ day ≤ daysInMonth year month

end Date

structure Date where
  year : Nat
  month : Nat
  day : Nat
  isDay : Date.IsDay year month day
deriving DecidableEq, Repr

namespace Date

def of? (year month day : Nat) : Option Date :=
  if h : IsDay year month day then some ⟨year, month, day, h⟩ else none

@[simp] theorem of?_self (d : Date) : of? d.year d.month d.day = some d :=
  dif_pos d.isDay

def daysBeforeYear (year : Nat) : Nat :=
  let past := year - 1
  past * 365 + past / 4 - past / 100 + past / 400

def daysBeforeMonth (year month : Nat) : Nat :=
  (List.range' 1 (month - 1)).foldl (fun days m => days + daysInMonth year m) 0

def number (d : Date) : Nat :=
  daysBeforeYear d.year + daysBeforeMonth d.year d.month + d.day

/-- The month and the day within it, of a day counted from one in what is left of a year. -/
def monthAndDay (year : Nat) : Nat → Nat → Nat → Nat × Nat
  | 0, month, day => (month, day)
  | fuel + 1, month, day =>
    if day ≤ daysInMonth year month then (month, day)
    else monthAndDay year fuel (month + 1) (day - daysInMonth year month)

def ofDayOfYear (year day : Nat) : Nat × Nat := monthAndDay year 12 1 day

def next? (d : Date) : Option Date :=
  if d.day < daysInMonth d.year d.month then of? d.year d.month (d.day + 1)
  else if d.month < 12 then of? d.year (d.month + 1) 1
  else of? (d.year + 1) 1 1

/-- Days after Monday of the day with a number. -/
def weekday (number : Nat) : Nat := (number + 6) % 7

/-- A year has 53 weeks if it starts on a Thursday, or on a Wednesday and is leap. -/
def weeksInYear (year : Nat) : Nat :=
  let first := weekday (daysBeforeYear year + 1)
  if first = 3 ∨ first = 2 ∧ isLeap year then 53 else 52

/-- The number of the Monday of the week that holds the first Thursday of a year. The week of the
first day may begin in the year before; in year 1 it does not. -/
def firstMonday (year : Nat) : Nat :=
  let first := daysBeforeYear year + 1
  let days := weekday first
  if days ≤ 3 then first - days else first + 7 - days

/-- The year and the day in it, of a day of a week. Weeks and days are counted from one. -/
def ofWeek? (year week day : Nat) : Option (Nat × Nat) :=
  if 1 ≤ year ∧ 1 ≤ week ∧ week ≤ weeksInYear year ∧ 1 ≤ day ∧ day ≤ 7 then
    let number := firstMonday year + (week - 1) * 7 + (day - 1)
    if number ≤ daysBeforeYear year then some (year - 1, number - daysBeforeYear (year - 1))
    else if number ≤ daysBeforeYear (year + 1) then some (year, number - daysBeforeYear year)
    else some (year + 1, number - daysBeforeYear (year + 1))
  else none

/-- A natural in at least so many digits. -/
def padded (width n : Nat) : List Char :=
  let digits := n.repr.toList
  List.replicate (width - digits.length) '0' ++ digits

def text (d : Date) : List Char :=
  padded 4 d.year ++ '-' :: padded 2 d.month ++ '-' :: padded 2 d.day

end Date

end ObjectQuery
