import Fibers.Text.Blank
import Fibers.Text.Decimal
import Fibers.Text.Lowercase
import Fibers.Text.Quoted

set_option autoImplicit false

/-! # Finalization strategies

How a closing scope runs its finalizers, and the notation of the three strategies:
`sequential`, `concurrent` and `concurrent:N` with a positive bound `N`. Case and the blanks at
the ends of the text do not matter.
-/

namespace Fibers

/-- How a closing scope runs its finalizers: one at a time with the last registered first, all at
once, or at most a number of them at a time. -/
inductive Strategy where
  | sequential
  | concurrent
  | bounded (limit : Nat)
  deriving DecidableEq, Inhabited, Repr

/-- Why a text is no strategy. -/
inductive StrategyError where
  | unknown (name : String)
  | badBound (bound : String)
  deriving DecidableEq, Repr

/-- The wording of each fault. -/
def StrategyError.message : StrategyError → String
  | .unknown name => "unknown finalization strategy " ++ Text.quoted name
  | .badBound bound => "expected a positive bound, got " ++ Text.quoted bound

namespace Strategy

/-- The notation of a strategy. -/
def display : Strategy → String
  | .sequential => "sequential"
  | .concurrent => "concurrent"
  | .bounded n => "concurrent:" ++ toString n

/-- The name of a strategy inside other texts. -/
def inspect : Strategy → String
  | .sequential => "Sequential"
  | .concurrent => "Concurrent"
  | .bounded n => "ConcurrentN(" ++ toString n ++ ")"

/-- What stands before the bound. -/
def boundMark : List Char := "concurrent:".toList

/-- Reads a bound: a positive number of 64 bits. -/
def parseBound (s : String) : Except StrategyError Strategy :=
  match Text.Decimal.parse s with
  | .ok (n + 1) => .ok (.bounded (n + 1))
  | _ => .error (.badBound s)

/-- Reads a strategy. -/
def parse (s : String) : Except StrategyError Strategy :=
  let t := Text.lowercase (Text.trim s)
  if t = "sequential" then .ok .sequential
  else if t = "concurrent" then .ok .concurrent
  else if boundMark.isPrefixOf t.toList then
    parseBound (String.ofList (t.toList.drop boundMark.length))
  else .error (.unknown t)

/-- The strategy with a bound of zero raised to one. -/
def normalize : Strategy → Strategy
  | .bounded 0 => .bounded 1
  | s => s

end Strategy

end Fibers
