import Fibers.Config
import Fibers.Config.Toml.Document

set_option autoImplicit false

/-! # Configuration files

The settings that a file in the TOML notation gives. They stand in three sections. A setting of the
wrong type rejects the file; names that mean nothing are passed over.
-/

namespace Fibers

namespace Toml

/-- The settings of the section `name`, which are called `settings`. A table gives them by name, an
array by their order, and elements beyond them do not count. A missing section has none and nor has
a date in its place; another value, or an array that is too short, is a fault. -/
def sectionOf (name : String) (settings : List String) (root : Entries) : Option Entries :=
  match find name root with
  | none => some []
  | some (.table _ t) => some t
  | some (.date _) => some []
  | some (.array items) =>
      if items.length < settings.length then none else some (settings.zip items)
  | some _ => none

/-- The number bound to `name`, if any; a negative number or another value is a fault. -/
def numberOf (name : String) (entries : Entries) : Option (Option Nat) :=
  match find name entries with
  | none => some none
  | some (.int n) => if 0 ≤ n then some (some n.toNat) else none
  | some _ => none

/-- The text bound to `name`, if any; another value is a fault. -/
def textOf (name : String) (entries : Entries) : Option (Option String) :=
  match find name entries with
  | none => some none
  | some (.text s) => some (some s)
  | some _ => none

/-- The settings of a file as they are written. -/
structure Written where
  maxOps : Option Nat
  maxTrace : Option Nat
  concurrency : Option Nat
  finalization : Option String
  clock : Option String

/-- The settings written in the tables of a file. -/
def written (root : Entries) : Option Written := do
  let fiber ← sectionOf "fiber" ["max_op_count", "max_trace_count", "concurrency"] root
  let scope ← sectionOf "scope" ["finalization"] root
  let scheduler ← sectionOf "scheduler" ["clock"] root
  return {
    maxOps := ← numberOf "max_op_count" fiber
    maxTrace := ← numberOf "max_trace_count" fiber
    concurrency := ← numberOf "concurrency" fiber
    finalization := ← textOf "finalization" scope
    clock := ← textOf "clock" scheduler }

/-- Reads an optional text with a parser whose faults are shown behind the setting's name. -/
def readWith {α : Type} (name : String) (parse : String → Except String α) :
    Option String → Except ConfigError (Option α)
  | none => .ok none
  | some s => match parse s with
    | .ok a => .ok (some a)
    | .error e => .error (.badFile (name ++ ": " ++ e))

/-- The settings of a file. A text that is no TOML, or holds a setting of the wrong type, is
rejected with one and the same reason. -/
def settings (s : String) : Except ConfigError Settings :=
  match (parse s).bind written with
  | none => .error (.badFile "<toml>")
  | some w => do
      let finalization ← readWith "scope.finalization"
        (fun t => (Strategy.parse t).mapError StrategyError.message) w.finalization
      let clock ← readWith "scheduler.clock"
        (fun t => (ClockKind.parse t).mapError ClockKindError.message) w.clock
      return ⟨w.maxOps, w.maxTrace, w.concurrency, finalization, clock⟩

end Toml

/-- A builder whose lower layers are the defaults with a file laid over them. -/
def Builder.ofToml (s : String) : Except ConfigError Builder :=
  (Toml.settings s).map fun layer => { base := layer.over Config.standard }

end Fibers
