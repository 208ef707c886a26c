import Fibers.Text.Printable

set_option autoImplicit false

/-! # Quoted text

Messages that cite a text put it between quotes. Quotes and backslashes inside get a backslash,
the common control characters their letter, and every character that does not show as itself is
written by its code point in hexadecimal.
-/

namespace Fibers.Text

/-- The digits of a number in lowercase hexadecimal. -/
def hex (n : Nat) : String := String.ofList (Nat.toDigits 16 n)

/-- How a character is written inside a quoted text. -/
def quotedChar (c : Char) : String :=
  match c.toNat with
  | 0x00 => "\\0"
  | 0x09 => "\\t"
  | 0x0A => "\\n"
  | 0x0D => "\\r"
  | 0x22 => "\\\""
  | 0x5C => "\\\\"
  | n => if isPrintable c then String.ofList [c] else "\\u\x7b" ++ hex n ++ "\x7d"

/-- A text between quotes. -/
def quoted (s : String) : String := "\"" ++ String.join (s.toList.map quotedChar) ++ "\""

end Fibers.Text
