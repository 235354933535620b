/-!
# Timestamps

A day of the calendar, or a time on it. `Timestamp.isPossible` holds of those that exist.
-/

namespace DesignMetrics

structure ClockTime where
  hour : Nat
  minute : Nat
  second : Nat
  micros : Nat := 0
  /-- The minutes by which the clock is ahead of universal time, if that is known. -/
  offset : Option Int := none
deriving DecidableEq

structure Timestamp where
  year : Nat
  month : Nat
  day : Nat
  clock : Option ClockTime := none
deriving DecidableEq

namespace Timestamp

def isLeapYear (year : Nat) : Bool := year % 4 = 0 && (year % 100 ≠ 0 || year % 400 = 0)

/-- The number of days of a month; there is none beyond the twelfth. -/
def daysInMonth (year month : Nat) : Nat :=
  if month = 2 then (if isLeapYear year then 29 else 28)
  else if [4, 6, 9, 11].contains month then 30
  else if 1 ≤ month ∧ month ≤ 12 then 31
  else 0

/-- Whether a clock can show the time; clocks differ by less than a day. -/
def isClockTime (time : ClockTime) : Bool :=
  time.hour < 24 && time.minute < 60 && time.second < 60
    && time.offset.all fun minutes => minutes.natAbs < 24 * 60

def isPossible (t : Timestamp) : Bool :=
  1 ≤ t.year && 1 ≤ t.day && t.day ≤ daysInMonth t.year t.month && t.clock.all isClockTime

def padded (width n : Nat) : String :=
  let digits := toString n
  "".pushn '0' (width - digits.length) ++ digits

def clockText (time : ClockTime) : String :=
  let zone (minutes : Int) : String :=
    (if minutes < 0 then "-" else "+") ++ padded 2 (minutes.natAbs / 60) ++ ":"
      ++ padded 2 (minutes.natAbs % 60)
  padded 2 time.hour ++ ":" ++ padded 2 time.minute ++ ":" ++ padded 2 time.second
    ++ (if time.micros = 0 then "" else "." ++ padded 6 time.micros)
    ++ (time.offset.map zone).getD ""

def text (t : Timestamp) : String :=
  padded 4 t.year ++ "-" ++ padded 2 t.month ++ "-" ++ padded 2 t.day
    ++ (t.clock.map (" " ++ clockText ·)).getD ""

end Timestamp

end DesignMetrics
