import Fibers.Config.File
import Fibers.Lab
import Fibers.Script.Build
import Fibers.Script.Host

set_option autoImplicit false

/-! # Settings in scripts

The settings of a runtime are built by a list of items, each one call on a builder; a lab takes a
record of options, of which a missing one keeps its standard value.
-/

namespace Fibers.Script

/-- The name of a fault of a configuration. -/
def faultName : ConfigError → String
  | .badVariable _ _ => "InvalidEnv"
  | .unreadableFile _ _ => "Io"
  | .badFile _ => "Parse"
  | .outOfRange _ => "Invalid"

/-- An answer that tells of a fault. -/
def fault (name message : String) : Datum :=
  .object [("error", .text name), ("message", .text message)]

/-- An answer that tells of a panic. -/
def panicked (d : Defect) : Datum := fault "panic" d.message

/-- The answer that tells of a rejected configuration. -/
def rejected (e : ConfigError) : Datum := fault (faultName e) e.message

/-- The environment variables in a record. -/
def environment (d : Datum) (name : String) : Option String := (d.field? name).map (·.asText)

/-- The defect of the first variable in a record that cannot be set, if there is one. -/
def environmentDefect? : Datum → Option Defect
  | .record fields => fields.findSome? fun v => variableDefect? v.1 v.2.asText
  | _ => none

/-- The services in a list of pairs of a type and a value. -/
def servicesOf (d : Datum) : Services :=
  d.items.foldl (fun s pair =>
    match toServiceKey? (pair.item 0).asText with
    | some key => withService s key (pair.item 1)
    | none => s) .empty

/-- The kind of clock in a text. -/
def toClockKind (d : Datum) : ClockKind := if d.asText = "virtual" then .virtual else .wall

/-- A builder, and the services that root fibers start with. -/
structure Setup where
  builder : Builder := .new
  services : Services := .empty

/-- One call on a builder. -/
def Setup.apply (env : Datum) (s : Setup) (item : Datum) : Except ConfigError Setup :=
  let arg := item.item 1
  let set (b : Builder) : Except ConfigError Setup := .ok { s with builder := b }
  match (item.item 0).asText with
  | "max_op_count" => set (s.builder.maxOps arg.asNat)
  | "max_trace_count" => set (s.builder.maxTrace arg.asNat)
  | "default_concurrency" => set (s.builder.concurrency arg.asNat)
  | "finalization" => set (s.builder.finalization (Notation.toStrategy arg))
  | "clock" => set (s.builder.clock (toClockKind arg))
  | "virtual_time" => set (s.builder.clock .virtual)
  | "env" => .ok { s with services := servicesOf arg }
  | "env_overrides" => do
      let b ← s.builder.withVariables (environment env)
      return { s with builder := b }
  | _ => .ok s

/-- The builder that the record of a request starts with. -/
def Setup.start (request : Datum) : Except ConfigError Setup :=
  match request.field? "missing_file", request.field? "toml" with
  | some path, _ => .error (.unreadableFile path.asText (pathFault path.asText).message)
  | none, some toml => (Builder.ofToml toml.asText).map fun b => { builder := b }
  | none, none => .ok {}

/-- The builder of a request, after all its calls. -/
def Setup.ofRequest (request : Datum) : Except ConfigError Setup := do
  (request.field "build").items.foldlM (Setup.apply (request.field "env")) (← Setup.start request)

/-- What is shown of a configuration. -/
def configFields (c : Config) : List (String × Datum) :=
  [("max_op_count", .nat c.maxOps), ("max_trace_count", .nat c.maxTrace),
    ("default_concurrency", .nat c.concurrency), ("finalization", .text c.finalization.display),
    ("clock", .text c.clock.display)]

/-- Answers a request for a configuration. The variables are set before anything is read. -/
def answerConfig (request : Datum) : Datum :=
  match environmentDefect? (request.field "env"), Setup.ofRequest request with
  | some d, _ => panicked d
  | none, .error e => rejected e
  | none, .ok s =>
      .object <| configFields s.builder.resolve ++
        if (request.field "debug").isTrue then [("debug", .text s.builder.inspect)] else []

/-- The settings of a lab in a record. -/
def toLabConfig (d : Datum) : LabConfig :=
  let standard : LabConfig := {}
  { maxOps := ((d.field? "max_op_count").map (·.asNat)).getD standard.maxOps
    maxTrace := ((d.field? "max_trace_count").map (·.asNat)).getD standard.maxTrace
    concurrency := ((d.field? "default_concurrency").map (·.asNat)).getD standard.concurrency
    finalization := ((d.field? "finalization").map Notation.toStrategy).getD standard.finalization
    panicOnLeak := ((d.field? "panic_on_leak").map (·.isTrue)).getD standard.panicOnLeak }

end Fibers.Script
