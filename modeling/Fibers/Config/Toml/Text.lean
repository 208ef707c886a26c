set_option autoImplicit false

/-! # Lines, texts and keys of a configuration file

How the TOML notation separates lines, and its quoted texts. A text stands between double quotes,
where a backslash starts an escape, or between single ones, where every character stands for
itself. Between single marks it ends with its line. Between threefold marks it may go over several
lines: the line end right after the opening is dropped, every other one counts as a line feed, and
one or two marks in a row belong to the text.

A control character other than the tab makes a text or a comment invalid.
-/

namespace Fibers.Toml

/-! ## Lines -/

/-- A blank inside a line. -/
def isSpace (c : Char) : Bool := c == ' ' || c == '\t'

/-- A character that no comment or text may hold. -/
def isControl (c : Char) : Bool := (c.toNat < 0x20 && c != '\t') || c.toNat == 0x7F

/-- The text without the blanks it starts with. -/
def skipSpaces (cs : List Char) : List Char := cs.dropWhile isSpace

/-- What follows the line end that the text starts with. -/
def lineEnd? : List Char → Option (List Char)
  | '\n' :: rest => some rest
  | '\r' :: '\n' :: rest => some rest
  | _ => none

/-- The text after the end of this line, if nothing but blanks and a comment stands before it. -/
def endLine (cs : List Char) : Option (List Char) :=
  match skipSpaces cs with
  | [] => some []
  | '#' :: rest =>
      match rest.dropWhile fun c => !isControl c with
      | [] => some []
      | after => lineEnd? after
  | after => lineEnd? after

/-- Passes over blanks, line ends and comments, as between the elements of an array. -/
def skipLines : Nat → List Char → List Char
  | 0, cs => cs
  | fuel + 1, cs =>
      let rest := skipSpaces cs
      if rest.isEmpty then []
      else match endLine rest with
        | some rest' => skipLines fuel rest'
        | none => rest

/-- Passes over blanks and line ends. -/
def skipBlankLines : List Char → List Char
  | [] => []
  | '\r' :: '\n' :: rest => skipBlankLines rest
  | c :: rest => if isSpace c || c == '\n' then skipBlankLines rest else c :: rest

/-! ## Escapes -/

/-- The value of a hexadecimal digit. -/
def hexValue? (c : Char) : Option Nat :=
  if '0' ≤ c ∧ c ≤ '9' then some (c.toNat - 48)
  else if 'a' ≤ c ∧ c ≤ 'f' then some (c.toNat - 87)
  else if 'A' ≤ c ∧ c ≤ 'F' then some (c.toNat - 55)
  else none

/-- Reads the character whose code point the first `n` characters give in hexadecimal. -/
def codePoint? (n : Nat) (cs : List Char) : Option (Char × List Char) :=
  if cs.length < n then none
  else match (cs.take n).mapM hexValue? with
    | none => none
    | some digits =>
        let code := digits.foldl (fun acc d => acc * 16 + d) 0
        if code < 0xD800 ∨ (0xE000 ≤ code ∧ code < 0x110000) then
          some (Char.ofNat code, cs.drop n)
        else none

/-- Reads what stands behind a backslash: the character meant, and the rest. -/
def escaped : List Char → Option (Char × List Char)
  | 'b' :: rest => some (Char.ofNat 8, rest)
  | 't' :: rest => some ('\t', rest)
  | 'n' :: rest => some ('\n', rest)
  | 'f' :: rest => some (Char.ofNat 12, rest)
  | 'r' :: rest => some ('\r', rest)
  | '"' :: rest => some ('"', rest)
  | '\\' :: rest => some ('\\', rest)
  | 'u' :: rest => codePoint? 4 rest
  | 'U' :: rest => codePoint? 8 rest
  | _ => none

/-! ## Texts -/

/-- The two marks that texts stand between. -/
def isMark (c : Char) : Bool := c.toNat == 0x22 || c.toNat == 0x27

/-- Whether a backslash starts an escape in a text that stands between marks `mark`. -/
def hasEscapes (mark : Char) : Bool := mark.toNat == 0x22

/-- Reads the rest of a text between single marks; `acc` holds the characters read, newest
first. -/
def shortText (mark : Char) : Nat → List Char → List Char → Option (String × List Char)
  | 0, _, _ => none
  | _, _, [] => none
  | fuel + 1, acc, c :: rest =>
      if c = mark then some (String.ofList acc.reverse, rest)
      else if hasEscapes mark && c == '\\' then
        match escaped rest with
        | some (x, rest') => shortText mark fuel (x :: acc) rest'
        | none => none
      else if isControl c then none
      else shortText mark fuel (c :: acc) rest

/-- Reads the rest of a text between threefold marks; `acc` holds the characters read, newest
first. Of three to five marks in a row the last three end the text. A backslash at the end of a
line, or with blanks alone behind it, takes that line end away and all blanks and line ends after
it. -/
def longText (mark : Char) : Nat → List Char → List Char → Option (String × List Char)
  | 0, _, _ => none
  | _, _, [] => none
  | fuel + 1, acc, c :: rest =>
      if c = mark then
        let marks := c :: rest.takeWhile (· == mark)
        let after := rest.dropWhile (· == mark)
        if marks.length < 3 then longText mark fuel (marks ++ acc) after
        else if marks.length ≤ 5 then
          some (String.ofList (marks.drop 3 ++ acc).reverse, after)
        else none
      else
        match lineEnd? (c :: rest) with
        | some rest' => longText mark fuel ('\n' :: acc) rest'
        | none =>
            if hasEscapes mark && c == '\\' then
              match lineEnd? (skipSpaces rest) with
              | some rest' => longText mark fuel acc (skipBlankLines rest')
              | none =>
                  match escaped rest with
                  | some (x, rest') => longText mark fuel (x :: acc) rest'
                  | none => none
            else if isControl c then none
            else longText mark fuel (c :: acc) rest

/-- Reads a text with the mark it starts with. -/
def quoted (mark : Char) (rest : List Char) : Option (String × List Char) :=
  if rest.take 2 == [mark, mark] then
    let body := rest.drop 2
    longText mark (body.length + 1) [] ((lineEnd? body).getD body)
  else shortText mark (rest.length + 1) [] rest

/-! ## Keys -/

/-- A character that a key may hold without quotes. -/
def isBare (c : Char) : Bool :=
  ('a' ≤ c && c ≤ 'z') || ('A' ≤ c && c ≤ 'Z') || ('0' ≤ c && c ≤ '9') || c == '-' || c == '_'

/-- Reads one part of a key; a quoted one stands between single marks. -/
def keyPart : List Char → Option (String × List Char)
  | [] => none
  | c :: rest =>
      if isMark c then shortText c (rest.length + 1) [] rest
      else if isBare c then
        some (String.ofList (c :: rest.takeWhile isBare), rest.dropWhile isBare)
      else none

/-- Reads the parts of a key, with dots and blanks between them. -/
def keyParts : Nat → List Char → Option (List String × List Char)
  | 0, _ => none
  | fuel + 1, cs => do
      let (part, rest) ← keyPart (skipSpaces cs)
      match skipSpaces rest with
      | '.' :: rest' =>
          let (parts, rest'') ← keyParts fuel rest'
          return (part :: parts, rest'')
      | rest' => return ([part], rest')

/-- One more than the parts that a key may have, and than the levels that arrays and inline tables
may be nested. -/
def nestingLimit : Nat := 80

/-- Reads a key. -/
def key (cs : List Char) : Option (List String × List Char) :=
  (keyParts (cs.length + 1) cs).filter fun r => r.1.length < nestingLimit

end Fibers.Toml
