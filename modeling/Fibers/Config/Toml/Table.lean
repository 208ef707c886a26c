set_option autoImplicit false

/-! # Tables of a configuration file

The values of the TOML notation, and the tree of tables that the lines of a file build up. A table
remembers how it came to be, because that decides whether a later line may still add to it: a table
named by a header line is named once, a table that only stands on the way to another may be named
later, a table made by a dotted key takes further keys but no header, and a table written inline is
complete.
-/

namespace Fibers

/-- How a table of a file came to be. -/
inductive TableOrigin where
  | header
  | path
  | dotted
  | inline
  deriving DecidableEq, Repr

/-- A value of a file. Dates and floats are kept as they are written. -/
inductive Toml where
  | int (n : Int)
  | float (text : String)
  | date (text : String)
  | text (s : String)
  | bool (b : Bool)
  | array (items : List Toml)
  | tables (items : List (List (String × Toml)))
  | table (origin : TableOrigin) (entries : List (String × Toml))
  deriving Inhabited

namespace Toml

/-- The entries of a table. -/
abbrev Entries := List (String × Toml)

/-- `entries` with `name` bound to `v`, in the place of an older binding if there is one. -/
def put (name : String) (v : Toml) : Entries → Entries
  | [] => [(name, v)]
  | (n, w) :: rest => if n = name then (n, v) :: rest else (n, w) :: put name v rest

/-- The value bound to `name`. -/
def find (name : String) (entries : Entries) : Option Toml :=
  (entries.find? (·.1 == name)).map (·.2)

/-- Applies `f` to the last element of a list. -/
def updateLast {α : Type} (f : α → Option α) : List α → Option (List α)
  | [] => none
  | [x] => (f x).map ([·])
  | x :: rest => (updateLast f rest).map (x :: ·)

/-! ## Header lines -/

/-- Applies `f` to the entries of the table at `path`; tables missing on the way are made, and an
array of tables stands for its last one. -/
def update (f : Entries → Option Entries) : List String → Entries → Option Entries
  | [], entries => f entries
  | name :: rest, entries =>
      match find name entries with
      | none => (update f rest []).map fun t => put name (.table .path t) entries
      | some (.table .inline _) => none
      | some (.table o t) => (update f rest t).map fun t' => put name (.table o t') entries
      | some (.tables ts) =>
          (updateLast (update f rest) ts).map fun ts' => put name (.tables ts') entries
      | some _ => none

/-- Opens the table `name` named by a header line. -/
def openTable (name : String) (entries : Entries) : Option Entries :=
  match find name entries with
  | none => some (put name (.table .header []) entries)
  | some (.table .path t) => some (put name (.table .header t) entries)
  | some _ => none

/-- Adds a table to the array of tables `name`. -/
def appendTable (name : String) (entries : Entries) : Option Entries :=
  match find name entries with
  | none => some (put name (.tables [[]]) entries)
  | some (.tables ts) => some (put name (.tables (ts ++ [[]])) entries)
  | some _ => none

/-! ## Keys -/

/-- Binds the name at the end of a dotted path, below a table that takes names if `takes` holds. A
path leads through tables made by dotted keys, tables that stand on the way to another, and the
last ones of arrays of tables; only tables made by dotted keys take the name at its end. -/
def bindAt (v : Toml) (takes : Bool) : List String → Entries → Option Entries
  | [], _ => none
  | [name], entries =>
      if takes && (find name entries).isNone then some (put name v entries) else none
  | name :: rest, entries =>
      match find name entries with
      | none => (bindAt v true rest []).map fun t => put name (.table .dotted t) entries
      | some (.table .dotted t) =>
          (bindAt v true rest t).map fun t' => put name (.table .dotted t') entries
      | some (.table .path t) =>
          (bindAt v false rest t).map fun t' => put name (.table .path t') entries
      | some (.tables ts) =>
          (updateLast (bindAt v false rest) ts).map fun ts' => put name (.tables ts') entries
      | some _ => none

/-- Binds a dotted key in a table. -/
def bindKey (v : Toml) (path : List String) (entries : Entries) : Option Entries :=
  bindAt v true path entries

end Toml

end Fibers
