import Fibers.Config.Toml.Moment

set_option autoImplicit false

/-! # Documents

A reader for the TOML notation. Values are read by recursion on fuel, of which the length of the
text is enough; `room` is how many more levels of arrays and inline tables may be opened. A document
is read line by line into a tree of tables, and one fault rejects all of it.
-/

namespace Fibers.Toml

/-! ## Values -/

/-- A character of a number or a word. -/
def isWordChar (c : Char) : Bool := isBare c || c == '+' || c == '.'

/-- Reads a date, a number or a word. -/
def scalar (cs : List Char) : Option (Toml × List Char) :=
  match moment? cs with
  | some rest => some (.date (String.ofList (cs.take (cs.length - rest.length))), rest)
  | none =>
      let (word, rest) := cs.span isWordChar
      if word = "true".toList then some (.bool true, rest)
      else if word = "false".toList then some (.bool false, rest)
      else (number word).map fun v => (v, rest)

mutual

/-- Reads a value. -/
def value : Nat → Nat → List Char → Option (Toml × List Char)
  | 0, _, _ => none
  | _, _, [] => none
  | fuel + 1, room, c :: rest =>
      if isMark c then (quoted c rest).map fun r => (.text r.1, r.2)
      else if c == '[' then
        if room = 0 then none
        else (elements fuel (room - 1) [] rest).map fun r => (.array r.1, r.2)
      else if c.toNat == 0x7B then
        if room = 0 then none
        else (inlineEntries fuel (room - 1) [] rest).map fun r => (.table .inline r.1, r.2)
      else scalar (c :: rest)

/-- Reads the elements of an array up to its end; `acc` holds the elements read. -/
def elements : Nat → Nat → List Toml → List Char → Option (List Toml × List Char)
  | 0, _, _, _ => none
  | fuel + 1, room, acc, cs =>
      match skipLines cs.length cs with
      | ']' :: rest => some (acc, rest)
      | cs' =>
          match value fuel room cs' with
          | none => none
          | some (v, rest) =>
              match skipLines rest.length rest with
              | ',' :: rest' => elements fuel room (acc ++ [v]) rest'
              | ']' :: rest' => some (acc ++ [v], rest')
              | _ => none

/-- Reads the entries of a table written inline up to its end. -/
def inlineEntries : Nat → Nat → Entries → List Char → Option (Entries × List Char)
  | 0, _, _, _ => none
  | fuel + 1, room, acc, cs =>
      match skipSpaces cs with
      | [] => none
      | c :: rest =>
          if c.toNat == 0x7D && acc.isEmpty then some (acc, rest)
          else
            match key cs with
            | some (path, '=' :: after) =>
                match value fuel room (skipSpaces after) with
                | none => none
                | some (v, rest') =>
                    match bindKey v path acc with
                    | none => none
                    | some acc' =>
                        match skipSpaces rest' with
                        | ',' :: more => inlineEntries fuel room acc' more
                        | d :: more => if d.toNat == 0x7D then some (acc', more) else none
                        | [] => none
            | _ => none

end

/-! ## Lines -/

/-- What has been read of a document: its tables, and the table that the next keys go to. -/
structure Reading where
  root : Entries
  path : List String

/-- The path without its last name, and that name. -/
def splitLast : List String → Option (List String × String)
  | [] => none
  | [name] => some ([], name)
  | name :: rest => (splitLast rest).map fun r => (name :: r.1, r.2)

/-- Reads one line and gives what follows it. -/
def line (r : Reading) (cs : List Char) : Option (Reading × List Char) := do
  let start := skipSpaces cs
  match start with
  | '[' :: '[' :: rest =>
      let (path, after) ← key rest
      match after with
      | ']' :: ']' :: after' =>
          let (outer, name) ← splitLast path
          let root ← update (appendTable name) outer r.root
          return (⟨root, path⟩, ← endLine after')
      | _ => none
  | '[' :: rest =>
      let (path, after) ← key rest
      match after with
      | ']' :: after' =>
          let (outer, name) ← splitLast path
          let root ← update (openTable name) outer r.root
          return (⟨root, path⟩, ← endLine after')
      | _ => none
  | _ =>
      match endLine start with
      | some rest => return (r, rest)
      | none =>
          let (path, after) ← key start
          match after with
          | '=' :: after' =>
              let (v, rest) ← value (after'.length + 1) (nestingLimit - 1) (skipSpaces after')
              let root ← update (bindKey v path) r.path r.root
              return (⟨root, r.path⟩, ← endLine rest)
          | _ => none

/-- Reads lines until the text ends. -/
def lines : Nat → Reading → List Char → Option Reading
  | _, r, [] => some r
  | 0, _, _ => none
  | fuel + 1, r, cs => (line r cs).bind fun next => lines fuel next.1 next.2

/-- The text without the byte order mark that it may start with. -/
def skipOrderMark : List Char → List Char
  | [] => []
  | c :: rest => if c.toNat == 0xFEFF then rest else c :: rest

/-- The tables of a document. -/
def parse (s : String) : Option Entries :=
  (lines (s.length + 1) ⟨[], []⟩ (skipOrderMark s.toList)).map (·.root)

end Fibers.Toml
