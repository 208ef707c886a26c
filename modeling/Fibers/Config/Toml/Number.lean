import Fibers.Config.Toml.Table
import Fibers.Config.Toml.Text

set_option autoImplicit false

/-! # Numbers of a configuration file

Integers have 64 signed bits and may be written in four bases; an underscore may stand between two
digits. Floats are told from integers by a fraction or an exponent. A float too great for a double
is no number, while one too small is, on either side of zero.
-/

namespace Fibers.Toml

/-! ## Digits -/

/-- A decimal digit. -/
def isDigit (c : Char) : Bool := '0' ≤ c && c ≤ '9'

/-- The digits of a number without the underscores, each of which stands between two digits. -/
def plainDigits (isDigit : Char → Bool) : List Char → Option (List Char)
  | [] => some []
  | [c] => if isDigit c then some [c] else none
  | c :: '_' :: rest =>
      if isDigit c && !rest.isEmpty then (plainDigits isDigit rest).map (c :: ·) else none
  | c :: rest => if isDigit c then (plainDigits isDigit rest).map (c :: ·) else none

/-- The value of digits in a base. -/
def valueOf (base : Nat) (digits : List Char) : Nat :=
  digits.foldl (fun acc c => acc * base + (hexValue? c).getD 0) 0

/-- Decimal digits, at least one. -/
def someDigits (cs : List Char) : Option (List Char) :=
  match plainDigits isDigit cs with
  | some [] => none
  | other => other

/-- Decimal digits, at least one and without a leading zero. -/
def decimalDigits (cs : List Char) : Option (List Char) :=
  match someDigits cs with
  | some ('0' :: _ :: _) => none
  | other => other

/-- The digits and underscores at the start of a text, and the rest. -/
def digitRun (cs : List Char) : List Char × List Char :=
  cs.span fun c => isDigit c || c == '_'

/-! ## Integers -/

/-- An integer that fits in 64 signed bits. -/
def fits (n : Int) : Option Toml := if -Int.pow 2 63 ≤ n ∧ n < Int.pow 2 63 then some (.int n) else none

/-- Reads digits in the base that a mark such as `0x` asks for. -/
def inBase (base : Nat) (cs : List Char) : Option Toml :=
  match plainDigits (fun c => ((hexValue? c).getD 16) < base) cs with
  | some (d :: ds) => fits (valueOf base (d :: ds))
  | _ => none

/-! ## Floats -/

/-- An unsigned float: `digits * 10 ^ exponent`. -/
structure Scientific where
  digits : List Char
  exponent : Int

/-- Reads an exponent: an optional sign and digits. -/
def exponent? : List Char → Option Int
  | '+' :: cs => (someDigits cs).map fun ds => (valueOf 10 ds : Int)
  | '-' :: cs => (someDigits cs).map fun ds => -(valueOf 10 ds : Int)
  | cs => (someDigits cs).map fun ds => (valueOf 10 ds : Int)

/-- Reads an unsigned float: digits, then a fraction, an exponent or both. -/
def scientific? (cs : List Char) : Option Scientific := do
  let (run, rest) := digitRun cs
  let whole ← decimalDigits run
  match rest with
  | '.' :: rest =>
      let (run, rest) := digitRun rest
      let fraction ← someDigits run
      match rest with
      | [] => return ⟨whole ++ fraction, -fraction.length⟩
      | c :: rest =>
          if c == 'e' || c == 'E' then
            return ⟨whole ++ fraction, (← exponent? rest) - fraction.length⟩
          else none
  | c :: rest => if c == 'e' || c == 'E' then return ⟨whole, ← exponent? rest⟩ else none
  | [] => none

/-- The least number that no double stands for: half a step above the greatest finite one. -/
def doubleBound : Nat := (Nat.pow 2 54 - 1) * Nat.pow 2 970

/-- Whether a float is too great for a double. The bound has 309 digits before its point, so only a
float that has as many needs to be compared. -/
def Scientific.overflows (s : Scientific) : Bool :=
  let digits := s.digits.dropWhile (· == '0')
  let m := valueOf 10 digits
  let size : Int := digits.length + s.exponent
  if m == 0 || size < 309 then false
  else if 309 < size then true
  else doubleBound * Nat.pow 10 (-s.exponent).toNat ≤ m * Nat.pow 10 s.exponent.toNat

/-! ## Numbers -/

/-- Reads a number or one of the words for a special float from the whole of `cs`. -/
def number (cs : List Char) : Option Toml :=
  match cs with
  | '0' :: 'x' :: r => inBase 16 r
  | '0' :: 'o' :: r => inBase 8 r
  | '0' :: 'b' :: r => inBase 2 r
  | _ =>
      let negative := cs.head? == some '-'
      let unsigned := match cs with
        | '+' :: r => r
        | '-' :: r => r
        | r => r
      match decimalDigits unsigned with
      | some ds =>
          let n := (valueOf 10 ds : Int)
          fits (if negative then -n else n)
      | none =>
          if unsigned == "inf".toList || unsigned == "nan".toList then
            some (.float (String.ofList cs))
          else match scientific? unsigned with
            | some s =>
                if !negative && s.overflows then none else some (.float (String.ofList cs))
            | none => none

end Fibers.Toml
