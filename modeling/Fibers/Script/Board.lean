import Fibers.Notation
import Fibers.Program.Combinators
import Fibers.Program.Proc

set_option autoImplicit false

/-! # The board of a script

The steps and programs of a script share tables of named things, counters and a log. Naming a
thing anew replaces it; a thing without a name is not kept.
-/

namespace Fibers.Script

/-- The name of a thing, if it has one. -/
abbrev Name := Option String

/-- Named things, the latest named first. -/
structure Table (α : Type) where
  entries : List (String × α) := []

namespace Table

variable {α : Type}

/-- The thing of a name. -/
def get? (t : Table α) (n : Name) : Option α :=
  n.bind fun n => (t.entries.find? (·.1 == n)).map (·.2)

/-- Names a thing. -/
def put (t : Table α) (n : Name) (a : α) : Table α :=
  match n with
  | some n => ⟨(n, a) :: t.entries.filter (·.1 != n)⟩
  | none => t

/-- Drops a name. -/
def remove (t : Table α) (n : Name) : Table α :=
  match n with
  | some n => ⟨t.entries.filter (·.1 != n)⟩
  | none => t

end Table

/-- A permit: the semaphore and the ticket. -/
structure Permit where
  semaphore : Key .semaphore
  ticket : Nat

/-- An observer of a fiber, with its key unless it was served at once. -/
structure Observer where
  fiber : Key .fiber
  key : Option Nat

/-- The part of the system that belongs to the script. `stamped` tells whether ids show the
instants they started at; `log` holds the entries of the present step, the latest first. -/
structure Board where
  stamped : Bool
  log : List Datum := []
  fibers : Table (Key .fiber) := {}
  callbacks : Table (Key .future) := {}
  futures : Table (Key .future) := {}
  semaphores : Table (Key .semaphore) := {}
  permits : Table Permit := {}
  scopes : Table (Key .scope) := {}
  handles : Table Handle := {}
  refs : Table FiberRef := {}
  refMaps : Table (Key .refs) := {}
  observers : Table Observer := {}
  observerKeys : Table Nat := {}
  counters : Table Int := {}

namespace Board

/-- Adds an entry to the log. -/
def note (d : Datum) (b : Board) : Board := { b with log := d :: b.log }

/-- The entries of the log, the oldest first, and the board without them. -/
def drain (b : Board) : List Datum × Board := (b.log.reverse, { b with log := [] })

end Board

/-- The data of scripts among the values of programs. -/
def datum : Carrier Datum :=
  { name := "fxdriver::value::V"
    wrap := .datum
    unwrap? := fun v => match v with
      | .datum d => some d
      | _ => none }

/-- An optional datum among the values of programs. -/
def optionalDatum : Carrier (Option Datum) :=
  { name := "core::option::Option<fxdriver::value::V>"
    wrap := fun d => .option (d.map .datum)
    unwrap? := fun v => match v with
      | .option none => some none
      | .option (some (.datum d)) => some (some d)
      | _ => none }

/-- Adds an entry to the log. -/
def note (d : Datum) : Proc Board Unit := .write (Board.note d)

/-- The number wrapped around into 64 signed bits. -/
def wrap64 (n : Int) : Int := n.bmod (Nat.pow 2 64)

end Fibers.Script
