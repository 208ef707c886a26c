import Fibers.Cause

set_option autoImplicit false

/-! # Texts of a cause

`pretty` lays a cause out over lines: one line a leaf, one line for each joining node with its
two parts indented by two blanks, and the frames of a trace, newest first, below the part that
it is attached to. `display` is the cause on one line without traces. `inspect` spells out every
constructor and is the form used inside messages.
-/

namespace Fibers.Cause

variable {ε : Type}

/-- The indentation at a depth. -/
def pad : Nat → String
  | 0 => ""
  | depth + 1 => "  " ++ pad depth

/-- The lines of a cause at a depth. -/
def prettyAt (showError : ε → String) (depth : Nat) : Cause ε → String
  | .fail e => pad depth ++ "Fail: " ++ showError e ++ "\n"
  | .die d => pad depth ++ "Die: " ++ d.message ++ "\n"
  | .interrupt id => pad depth ++ "Interrupted by " ++ id.display ++ "\n"
  | .andThen a b =>
      pad depth ++ "Then\n" ++ prettyAt showError (depth + 1) a ++ prettyAt showError (depth + 1) b
  | .both a b =>
      pad depth ++ "Both\n" ++ prettyAt showError (depth + 1) a ++ prettyAt showError (depth + 1) b
  | .traced c t => prettyAt showError depth c ++ t.lines (pad depth)

/-- The lines of a cause. -/
def pretty (showError : ε → String) (c : Cause ε) : String := prettyAt showError 0 c

/-- The cause on one line. -/
def display (showError : ε → String) : Cause ε → String
  | .fail e => showError e
  | .die d => d.display
  | .interrupt id => "interrupted by " ++ id.display
  | .andThen a b => "(" ++ a.display showError ++ " then " ++ b.display showError ++ ")"
  | .both a b => "(" ++ a.display showError ++ " and " ++ b.display showError ++ ")"
  | .traced c _ => c.display showError

/-- The cause with every constructor spelled out. -/
def inspect (showError : ε → String) : Cause ε → String
  | .fail e => "Fail(" ++ showError e ++ ")"
  | .die d => "Die(Defect \x7b message: " ++ Text.quoted d.message ++ " \x7d)"
  | .interrupt id => "Interrupt(" ++ id.inspect ++ ")"
  | .andThen a b => "Then(" ++ a.inspect showError ++ ", " ++ b.inspect showError ++ ")"
  | .both a b => "Both(" ++ a.inspect showError ++ ", " ++ b.inspect showError ++ ")"
  | .traced c t => "Traced(" ++ c.inspect showError ++ ", " ++ t.inspect ++ ")"

end Fibers.Cause
