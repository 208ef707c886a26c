import Fibers.Context
import Fibers.Datum
import Fibers.Exit

set_option autoImplicit false

/-! # Values

The values that flow through programs. The interpreter passes them on without looking; a part of
a program that expects a certain type states it by a `Carrier` and gets a defect where the value
is of another type. Typed errors are values too, so the causes and exits of the interpreter are
those of `Value`.
-/

namespace Fibers

/-- Names a finalizer of a scope. -/
structure Handle where
  scope : Key .scope
  key : Nat
  deriving DecidableEq, Inhabited, Repr

/-- The text of a handle. -/
def Handle.inspect (h : Handle) : String :=
  "FinalizerHandle \x7b key: " ++ toString h.key ++ " \x7d"

/-- A value of any of the types that programs deal with. -/
inductive Value where
  | unit
  | datum (d : Datum)
  | int (n : Int)
  | text (s : String)
  | flag (b : Bool)
  | byte (n : Nat)
  | option (v : Option Value)
  | list (vs : List Value)
  | exit (e : Exit Value Value)
  | exits (es : List (Exit Value Value))
  | decided (winner : Option (Nat × Exit Value Value))
  | context (c : Context)
  | scope (s : Key .scope)
  | trace (t : Trace)
  | fiber (f : Key .fiber)
  | permit (semaphore : Key .semaphore) (ticket : Nat)

instance : Inhabited Value := ⟨.unit⟩

/-- A cause whose typed errors are values of any type. -/
abbrev AnyCause := Cause Value

/-- An exit whose value and typed errors are of any type. -/
abbrev AnyExit := Exit Value Value

namespace Value

/-- The exit that a value stands for; a value of another type stands for a defect. -/
def asExit : Value → AnyExit
  | .exit e => e
  | _ => .die "value is not an exit"

/-- The exits that a value stands for; none for a value of another type. -/
def asExits : Value → List AnyExit
  | .exits es => es
  | _ => []

/-- The values that a value stands for; none for a value of another type. -/
def asList : Value → List Value
  | .list vs => vs
  | _ => []

end Value

/-! ## Types -/

/-- A type `α` among the values: its name in defects, and the way in and out. -/
structure Carrier (α : Type) where
  name : String
  wrap : α → Value
  unwrap? : Value → Option α

namespace Carrier

variable {α : Type} (c : Carrier α)

/-- The value as one of type `α`. -/
def cast (v : Value) : Except Defect α :=
  match c.unwrap? v with
  | some a => .ok a
  | none => .error ⟨"value is not a `" ++ c.name ++ "`"⟩

/-- The cause with its errors as ones of type `α`. -/
def castCause (cause : AnyCause) : Cause α := cause.tryMap c.cast

/-- The exit with its value and its errors as ones of type `α`. -/
def castExit : AnyExit → Exit α α
  | .success v =>
      match c.cast v with
      | .ok a => .success a
      | .error d => .failure (.die d)
  | .failure cause => .failure (c.castCause cause)

/-- The cause with its errors as values. -/
def wrapCause (cause : Cause α) : AnyCause := cause.map c.wrap

/-- The exit with its value and its errors as values. -/
def wrapExit (e : Exit α α) : AnyExit := (e.map c.wrap).mapError c.wrap

end Carrier

end Fibers
