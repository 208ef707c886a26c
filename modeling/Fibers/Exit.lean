import Fibers.Cause.Render

set_option autoImplicit false

/-! # Exits

An exit is how a fiber, a program or a scope ended: with a value or with a cause. `RunError` is
the failure of a run reduced to its most telling part.
-/

namespace Fibers

/-- A value or a cause. -/
inductive Exit (α ε : Type) where
  | success (value : α)
  | failure (cause : Cause ε)
  deriving DecidableEq, BEq, Repr

namespace Exit

variable {α β ε φ : Type}

instance : Inhabited (Exit α ε) := ⟨.failure default⟩

/-- The exit of a typed failure. -/
def fail (e : ε) : Exit α ε := .failure (.fail e)

/-- The exit of a defect. -/
def die (message : String) : Exit α ε := .failure (.dieWith message)

/-- The exit of an interruption. -/
def interrupt (id : FiberId) : Exit α ε := .failure (.interrupt id)

/-- The exit of a result: an error is a typed failure. -/
def ofExcept : Except ε α → Exit α ε
  | .ok a => .success a
  | .error e => fail e

/-- Whether the exit is a value. -/
def isSuccess : Exit α ε → Bool
  | .success _ => true
  | .failure _ => false

/-- Whether the exit is a cause. -/
def isFailure (e : Exit α ε) : Bool := !e.isSuccess

/-- Whether the exit is a cause of interruptions alone. -/
def isInterrupted : Exit α ε → Bool
  | .success _ => false
  | .failure c => c.isInterruptedOnly

/-- The value. -/
def value? : Exit α ε → Option α
  | .success a => some a
  | .failure _ => none

/-- The cause. -/
def cause? : Exit α ε → Option (Cause ε)
  | .success _ => none
  | .failure c => some c

/-- Applies `f` to the value. -/
def map (f : α → β) : Exit α ε → Exit β ε
  | .success a => .success (f a)
  | .failure c => .failure c

/-- Applies `g` to every typed failure of the cause. -/
def mapError (g : ε → φ) : Exit α ε → Exit α φ
  | .success a => .success a
  | .failure c => .failure (c.map g)

/-- The exit followed by a cause: a success followed by a failure is that failure. -/
def thenCause : Exit α ε → Option (Cause ε) → Exit α ε
  | e, none => e
  | .success _, some next => .failure next
  | .failure c, some next => .failure (.andThen c next)

/-- The value, or the message of the panic that asking a failed exit for its value raises. -/
def unwrap (showError : ε → String) : Exit α ε → Except Defect α
  | .success a => .ok a
  | .failure c => .error ⟨"called `Exit::unwrap()` on a failure: " ++ c.inspect showError⟩

/-- The exit with its constructors spelled out. -/
def inspect (showValue : α → String) (showError : ε → String) : Exit α ε → String
  | .success a => "Success(" ++ showValue a ++ ")"
  | .failure c => "Failure(" ++ c.inspect showError ++ ")"

end Exit

/-! ## The failure of a run -/

/-- The most telling failure of a cause. -/
inductive RunError (ε : Type) where
  | failed (e : ε)
  | died (d : Defect)
  | interrupted (id : FiberId)
  deriving DecidableEq, BEq, Repr

namespace RunError

variable {ε : Type}

/-- The first typed failure of a cause, else its first defect, else its first interruption. -/
def ofCause (c : Cause ε) : RunError ε :=
  match c.failures, c.defects, c.interruptors with
  | e :: _, _, _ => .failed e
  | [], d :: _, _ => .died d
  | [], [], id :: _ => .interrupted id
  | [], [], [] => .interrupted .nobody

/-- The typed failure, if the run failed with one. -/
def failure? : RunError ε → Option ε
  | .failed e => some e
  | _ => none

/-- Whether the run was interrupted. -/
def isInterrupted : RunError ε → Bool
  | .interrupted _ => true
  | _ => false

/-- Whether the run died. -/
def isDied : RunError ε → Bool
  | .died _ => true
  | _ => false

/-- The text of the failure. -/
def display (inspectError : ε → String) : RunError ε → String
  | .failed e => "program failed: " ++ inspectError e
  | .died d => "program died: " ++ d.display
  | .interrupted id => "program was interrupted by " ++ id.display

end RunError

end Fibers
