set_option autoImplicit false

/-! # Unsigned decimal numbers of 64 bits

`Decimal.parse` reads an optional plus sign and a non-empty string of ASCII digits. It goes
through the text from the left and stops at the first fault: a character that is no digit, or a
digit that takes the value to `2 ^ 64` or beyond. Leading zeros are allowed.
-/

namespace Fibers.Text

/-- Why a text is no unsigned number of 64 bits. -/
inductive DecimalError where
  | empty
  | invalidDigit
  | overflow
  deriving DecidableEq, Repr

/-- The wording of each fault. -/
def DecimalError.message : DecimalError → String
  | .empty => "cannot parse integer from empty string"
  | .invalidDigit => "invalid digit found in string"
  | .overflow => "number too large to fit in target type"

namespace Decimal

/-- The least number that does not fit. -/
def bound : Nat := Nat.pow 2 64

/-- The value of an ASCII digit. -/
def digit? (c : Char) : Option Nat :=
  if '0' ≤ c ∧ c ≤ '9' then some (c.toNat - 48) else none

/-- Reads digits from the left, `value` being the number read so far. -/
def digits (value : Nat) : List Char → Except DecimalError Nat
  | [] => .ok value
  | c :: rest =>
      match digit? c with
      | none => .error .invalidDigit
      | some d =>
          if value * 10 + d < bound then digits (value * 10 + d) rest else .error .overflow

/-- Reads a whole text: an optional plus sign, then at least one digit. -/
def parse (s : String) : Except DecimalError Nat :=
  match s.toList with
  | [] => .error .empty
  | ['+'] => .error .invalidDigit
  | '+' :: rest => digits 0 rest
  | chars => digits 0 chars

end Decimal

end Fibers.Text
