import Mathlib.Data.Int.Notation
import Mathlib.Tactic.Common

/-!
# Timestamps

`CurrentTimestamp` and `TimestampAfterSeconds` of `utils.hpp`. An instant is
the number of milliseconds since the epoch; the calendar date of a day is
found by counting days from the first of January 1970.
-/

set_option autoImplicit false

namespace PqFl.Timestamps

structure Date where
  year : ℕ
  month : ℕ
  day : ℕ
  deriving DecidableEq, Repr

def isLeapYear (y : ℕ) : Bool := (y % 4 == 0 && y % 100 != 0) || y % 400 == 0

def daysInMonth (y : ℕ) : ℕ → ℕ
  | 2 => if isLeapYear y then 29 else 28
  | 4 => 30
  | 6 => 30
  | 9 => 30
  | 11 => 30
  | _ => 31

def nextDay (d : Date) : Date :=
  if d.day < daysInMonth d.year d.month then { d with day := d.day+1 }
  else if d.month < 12 then ⟨d.year, d.month+1, 1⟩
  else ⟨d.year+1, 1, 1⟩

/-- `std::gmtime`: the date of the day with this number. -/
def gmDate : ℕ → Date
  | 0 => ⟨1970, 1, 1⟩
  | n+1 => nextDay (gmDate n)

/-- `std::setfill('0') << std::setw(width)`. -/
def padded (width n : ℕ) : String :=
  String.ofList (List.replicate (width - n.repr.length) '0') ++ n.repr

def currentTimestamp (now : ℕ) : String :=
  let date := gmDate (now / 86400000)
  let second := now / 1000
  padded 4 date.year ++ "-" ++ padded 2 date.month ++ "-" ++ padded 2 date.day ++ "T" ++
    padded 2 (second / 3600 % 24) ++ ":" ++ padded 2 (second / 60 % 60) ++ ":" ++
    padded 2 (second % 60) ++ "." ++ padded 3 (now % 1000) ++ "Z"

def timestampAfterSeconds (now : ℕ) (seconds : ℤ) : String :=
  currentTimestamp (now + 1000 * (max 0 seconds).toNat)

example : currentTimestamp 5097600042 = "1970-03-01T00:00:00.042Z" := by decide +kernel

end PqFl.Timestamps
