import DesignMetrics.Timestamp
import DesignMetrics.Text.Digits
import DesignMetrics.Yaml.Line

/-!
# Written forms of timestamps

A date is a year of four digits, a month and a day. A time of day may follow it, and behind that the
difference to universal time.
-/

namespace DesignMetrics.Yaml.TimestampText

/-- A number of `least` to `most` digits, as many as there are. -/
def number? (least most : Nat) (s : List Char) : Option (Nat × List Char) :=
  let digits := (s.take most).takeWhile Char.isDigit
  if least ≤ digits.length then some (Text.digitsValue 10 digits, s.drop digits.length) else none

/-- A number behind a mark. -/
def marked? (mark : Char) (least most : Nat) (s : List Char) : Option (Nat × List Char) :=
  if s.head? = some mark then number? least most (s.drop 1) else none

/-- What follows the mark or the space between a date and a time. -/
def timeStart? : List Char → Option (List Char)
  | [] => none
  | c :: rest =>
    if c = 'T' ∨ c = 't' then some rest
    else if isSpaceOrTab c then some (rest.dropWhile isSpaceOrTab)
    else none

/-- The millionths of a second behind a point; further digits are dropped. -/
def micros (s : List Char) : Nat × List Char :=
  match s with
  | '.' :: rest =>
    let digits := rest.takeWhile Char.isDigit
    (Text.digitsValue 10 ((digits ++ List.replicate 6 '0').take 6), rest.dropWhile Char.isDigit)
  | _ => (0, s)

/-- The minutes by which a clock is ahead of universal time, written up to the end. -/
def offset? (s : List Char) : Option Int :=
  match s.dropWhile isSpaceOrTab with
  | ['Z'] => some 0
  | '+' :: rest => minutes? rest
  | '-' :: rest => (minutes? rest).map (-·)
  | _ => none
where
  minutes? (s : List Char) : Option Int := do
    let (hours, rest) ← number? 1 2 s
    if rest.isEmpty then return hours * 60
    let (minutes, rest) ← marked? ':' 2 2 rest
    guard rest.isEmpty
    return hours * 60 + minutes

/-- A time of day, written up to the end. -/
def clock? (s : List Char) : Option ClockTime := do
  let (hour, rest) ← number? 1 2 s
  let (minute, rest) ← marked? ':' 2 2 rest
  let (second, rest) ← marked? ':' 2 2 rest
  let (micros, rest) := micros rest
  if rest.isEmpty then return { hour, minute, second, micros }
  return { hour, minute, second, micros, offset := some (← offset? rest) }

/-- A date, and a time of day if there is one. -/
def read? (s : List Char) : Option Timestamp := do
  let (year, rest) ← number? 4 4 s
  let (month, rest) ← marked? '-' 1 2 rest
  let (day, rest) ← marked? '-' 1 2 rest
  if rest.isEmpty then return { year, month, day }
  return { year, month, day, clock := some (← clock? (← timeStart? rest)) }

/-- Whether a text is a timestamp without being declared one: its month and day have two digits
unless a time of day follows. -/
def isPlain (s : List Char) : Bool :=
  (read? s).any fun t => t.clock.isSome || s.length = 10

end DesignMetrics.Yaml.TimestampText
