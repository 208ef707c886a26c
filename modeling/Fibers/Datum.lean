set_option autoImplicit false

/-! # Plain data

`Datum` is the data that programs of the script notation carry: their values, their typed
errors and their log entries. A record keeps its fields in ascending order of their names and
names each field once; `Datum.object` builds such a record from any list of fields.

A datum has two texts. `compact` writes it without blanks, strings in quotes. `display` is the
same text except that a string at the top stands bare; it is the form that failures are shown
in.
-/

namespace Fibers

/-- A null, a truth value, an integer, a text, a list or a record. -/
inductive Datum where
  | null
  | bool (b : Bool)
  | int (n : Int)
  | text (s : String)
  | list (items : List Datum)
  | record (fields : List (String × Datum))
  deriving Inhabited, BEq, Repr

namespace Datum

/-! ## Records -/

/-- `fields` with `name` bound to `d`; the fields stay in ascending order of their names. -/
def setField (name : String) (d : Datum) : List (String × Datum) → List (String × Datum)
  | [] => [(name, d)]
  | (n, e) :: rest =>
      if name = n then (name, d) :: rest
      else if name < n then (name, d) :: (n, e) :: rest
      else (n, e) :: setField name d rest

/-- The record holding `fields`; of two fields with one name the later stays. -/
def object (fields : List (String × Datum)) : Datum :=
  .record (fields.foldl (fun acc f => setField f.1 f.2 acc) [])

/-- The value bound to `name`, `null` if the datum is no record or has no such field. -/
def field (d : Datum) (name : String) : Datum :=
  match d with
  | .record fields => ((fields.find? (·.1 == name)).map (·.2)).getD .null
  | _ => .null

/-- The value bound to `name`, if the datum is a record that has such a field. -/
def field? (d : Datum) (name : String) : Option Datum :=
  match d with
  | .record fields => (fields.find? (·.1 == name)).map (·.2)
  | _ => none

/-! ## Reading

A datum of another shape than the one asked for reads as the empty value of that shape. -/

/-- The `i`-th element of a list, `null` elsewhere. -/
def item (d : Datum) (i : Nat) : Datum :=
  match d with
  | .list items => items.getD i .null
  | _ => .null

/-- The elements of a list; none elsewhere. -/
def items : Datum → List Datum
  | .list xs => xs
  | _ => []

/-- The text of a string; empty elsewhere. -/
def asText : Datum → String
  | .text s => s
  | _ => ""

/-- A natural number below `2 ^ 64`. -/
def asNat? : Datum → Option Nat
  | .int n => if 0 ≤ n ∧ n < Int.pow 2 64 then some n.toNat else none
  | _ => none

/-- A natural number below `2 ^ 64`; zero elsewhere. -/
def asNat (d : Datum) : Nat := d.asNat?.getD 0

/-- An integer that fits in 64 signed bits. -/
def asInt? : Datum → Option Int
  | .int n => if -Int.pow 2 63 ≤ n ∧ n < Int.pow 2 63 then some n else none
  | _ => none

/-- An integer that fits in 64 signed bits; zero elsewhere. -/
def asInt (d : Datum) : Int := d.asInt?.getD 0

/-- Whether the datum is the truth value `true`. -/
def isTrue : Datum → Bool
  | .bool b => b
  | _ => false

/-- The integer with the value of a natural number. -/
def nat (n : Nat) : Datum := .int n

/-- A list of texts. -/
def texts (xs : List String) : Datum := .list (xs.map .text)

/-- The datum of an optional one, `null` for none. -/
def ofOption (d : Option Datum) : Datum := d.getD .null

/-! ## Depth -/

mutual

/-- How deep lists and records are nested in a datum. -/
def depth : Datum → Nat
  | .list xs => depthItems xs + 1
  | .record fs => depthFields fs + 1
  | _ => 1

/-- The greatest depth among the elements of a list. -/
def depthItems : List Datum → Nat
  | [] => 0
  | d :: rest => max d.depth (depthItems rest)

/-- The greatest depth among the fields of a record. -/
def depthFields : List (String × Datum) → Nat
  | [] => 0
  | (_, d) :: rest => max d.depth (depthFields rest)

end

/-! ## Text -/

/-- A lowercase hexadecimal digit. -/
def hexDigit (n : Nat) : Char :=
  if n < 10 then Char.ofNat (48 + n) else Char.ofNat (87 + n)

/-- How one character is written between quotes: quote, backslash and control characters are
escaped, everything else stands for itself. -/
def escape (c : Char) : String :=
  match c.toNat with
  | 0x22 => "\\\""
  | 0x5C => "\\\\"
  | 0x08 => "\\b"
  | 0x0C => "\\f"
  | 0x0A => "\\n"
  | 0x0D => "\\r"
  | 0x09 => "\\t"
  | n =>
      if n < 0x20 then "\\u00" ++ String.ofList [hexDigit (n / 16), hexDigit (n % 16)]
      else String.ofList [c]

/-- A string between quotes. -/
def quote (s : String) : String :=
  "\"" ++ String.join (s.toList.map escape) ++ "\""

mutual

/-- The text of a datum without blanks. -/
def compact : Datum → String
  | .null => "null"
  | .bool true => "true"
  | .bool false => "false"
  | .int n => toString n
  | .text s => quote s
  | .list xs => "[" ++ compactItems xs ++ "]"
  | .record fs => "\x7b" ++ compactFields fs ++ "\x7d"

/-- The texts of the elements of a list, with commas between them. -/
def compactItems : List Datum → String
  | [] => ""
  | [d] => d.compact
  | d :: rest => d.compact ++ "," ++ compactItems rest

/-- The texts of the fields of a record, with commas between them. -/
def compactFields : List (String × Datum) → String
  | [] => ""
  | [(n, d)] => quote n ++ ":" ++ d.compact
  | (n, d) :: rest => quote n ++ ":" ++ d.compact ++ "," ++ compactFields rest

end

/-- The text of a datum with a string at the top left bare. -/
def display : Datum → String
  | .text s => s
  | d => d.compact

end Datum

end Fibers
