set_option autoImplicit false

/-! # Services

The environment of a program: at most one service of each of four types. A program reads the
services around it and can provide more of them to a part of itself; there the inner ones win.
-/

namespace Fibers

/-- The types a service can have. -/
inductive ServiceKey where
  | int
  | text
  | flag
  | byte
  deriving DecidableEq, Repr

/-- The name of a service type in messages. -/
def ServiceKey.typeName : ServiceKey → String
  | .int => "i64"
  | .text => "alloc::string::String"
  | .flag => "bool"
  | .byte => "u8"

/-- The services of an environment. -/
structure Services where
  int : Option Int := none
  text : Option String := none
  flag : Option Bool := none
  byte : Option Nat := none
  deriving DecidableEq, Inhabited, Repr

namespace Services

/-- The environment without services. -/
def empty : Services := {}

/-- The number of services. -/
def size (s : Services) : Nat :=
  s.int.toList.length + s.text.toList.length + s.flag.toList.length + s.byte.toList.length

/-- Whether there is no service. -/
def isEmpty (s : Services) : Bool := s.size == 0

/-- Whether there is a service of a type. -/
def contains (s : Services) : ServiceKey → Bool
  | .int => s.int.isSome
  | .text => s.text.isSome
  | .flag => s.flag.isSome
  | .byte => s.byte.isSome

/-- The services of `inner` over those of `outer`. -/
def union (outer inner : Services) : Services :=
  { int := inner.int.or outer.int
    text := inner.text.or outer.text
    flag := inner.flag.or outer.flag
    byte := inner.byte.or outer.byte }

/-- The text of an environment. -/
def inspect (s : Services) : String := "Env \x7b services: " ++ toString s.size ++ " \x7d"

theorem union_empty (s : Services) : s.union empty = s := by
  cases s; simp [union, empty]

theorem empty_union (s : Services) : empty.union s = s := by
  cases s; simp [union, empty]

theorem union_assoc (a b c : Services) : (a.union b).union c = a.union (b.union c) := by
  cases a; cases b; cases c
  simp [union, Option.or_assoc]

end Services

end Fibers
