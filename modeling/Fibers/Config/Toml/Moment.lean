import Fibers.Config.Toml.Number

set_option autoImplicit false

/-! # Dates and times of a configuration file

A date has a year of four digits, a month and a day of that month. A time of day has hours, minutes
and seconds, which may be a leap second or have a fraction. A time may follow a date behind a `T` or
a blank, and then have an offset. Each reader here gives what follows the part it reads.
-/

namespace Fibers.Toml

/-- Reads a number of `n` digits that lies between two bounds. -/
def fixedNumber (n low high : Nat) (cs : List Char) : Option (Nat × List Char) :=
  let digits := cs.take n
  let value := valueOf 10 digits
  if digits.length = n ∧ digits.all isDigit ∧ low ≤ value ∧ value ≤ high then
    some (value, cs.drop n)
  else none

/-- Reads one certain character. -/
def expect (c : Char) : List Char → Option (List Char)
  | [] => none
  | d :: rest => if d = c then some rest else none

/-- The number of days of a month. -/
def daysIn (year month : Nat) : Nat :=
  if month = 2 then
    if year % 4 = 0 ∧ (year % 100 ≠ 0 ∨ year % 400 = 0) then 29 else 28
  else if month = 4 ∨ month = 6 ∨ month = 9 ∨ month = 11 then 30
  else 31

/-- Reads a date. -/
def date? (cs : List Char) : Option (List Char) := do
  let (year, rest) ← fixedNumber 4 0 9999 cs
  let (month, rest) ← fixedNumber 2 1 12 (← expect '-' rest)
  let (_, rest) ← fixedNumber 2 1 (daysIn year month) (← expect '-' rest)
  return rest

/-- Reads hours and minutes. -/
def minutes? (cs : List Char) : Option (List Char) := do
  let (_, rest) ← fixedNumber 2 0 23 cs
  let (_, rest) ← fixedNumber 2 0 59 (← expect ':' rest)
  return rest

/-- Reads a time of day. -/
def time? (cs : List Char) : Option (List Char) := do
  let (_, rest) ← fixedNumber 2 0 60 (← expect ':' (← minutes? cs))
  match rest with
  | '.' :: fraction =>
      return if (fraction.takeWhile isDigit).isEmpty then rest else fraction.dropWhile isDigit
  | _ => return rest

/-- Passes over an offset, if there is one. -/
def skipOffset : List Char → List Char
  | [] => []
  | c :: rest =>
      if c == 'Z' || c == 'z' then rest
      else if c == '+' || c == '-' then (minutes? rest).getD (c :: rest)
      else c :: rest

/-- Reads a date, a time of day, or both. -/
def moment? (cs : List Char) : Option (List Char) :=
  match date? cs with
  | none => time? cs
  | some [] => some []
  | some (c :: rest) =>
      if c == 'T' || c == 't' || c == ' ' then
        match time? rest with
        | some rest' => some (skipOffset rest')
        | none => some (c :: rest)
      else some (c :: rest)

end Fibers.Toml
