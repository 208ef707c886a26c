import Fibers.Cause
import Fibers.Text.Quoted

set_option autoImplicit false

/-! # The host of a script

A script may ask for a file and set environment variables. The host of the script holds no files,
so reading one always fails, and it refuses some names of variables. This module says what the
failure is in each case.
-/

namespace Fibers.Script

/-- Why the host refuses something. -/
inductive HostFault where
  | embeddedNul
  | notFound
  | isDirectory
  | nameTooLong
  | invalidArgument
  deriving DecidableEq, Repr

/-- The wording of each fault. -/
def HostFault.message : HostFault → String
  | .embeddedNul => "file name contained an unexpected NUL byte"
  | .notFound => "No such file or directory (os error 2)"
  | .isDirectory => "Is a directory (os error 21)"
  | .nameTooLong => "File name too long (os error 36)"
  | .invalidArgument => "Invalid argument (os error 22)"

/-- Whether a text holds a NUL, which ends every text of the host. -/
def holdsNul (s : String) : Bool := s.toList.contains (Char.ofNat 0)

/-- The parts of a path that name something, which empty parts and dots do not. -/
def pathNames (path : String) : List String :=
  (path.splitOn "/").filter fun part => !(part == "" || part == "." || part == "..")

/-- Why no file can be read at a path. A path that names nothing leads to a directory; any other
one is followed up to its first name, which is too long or not found. -/
def pathFault (path : String) : HostFault :=
  if holdsNul path then .embeddedNul
  else if 4096 ≤ path.utf8ByteSize then .nameTooLong
  else match pathNames path with
    | [] => if path = "" then .notFound else .isDirectory
    | name :: _ => if 255 < name.utf8ByteSize then .nameTooLong else .notFound

/-- Why a variable cannot be set, if it cannot. -/
def variableFault? (name value : String) : Option HostFault :=
  if holdsNul name || holdsNul value then some .embeddedNul
  else if name = "" ∨ name.toList.contains '=' then some .invalidArgument
  else none

/-- The defect of setting a variable that cannot be set. -/
def variableDefect? (name value : String) : Option Defect :=
  (variableFault? name value).map fun fault =>
    ⟨"failed to set environment variable `" ++ Text.quoted name ++ "` to `" ++
      Text.quoted value ++ "`: " ++ fault.message⟩

end Fibers.Script
