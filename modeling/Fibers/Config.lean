import Fibers.Strategy

set_option autoImplicit false

/-! # Configuration

The settings of a runtime and the layers they come from. Each setting is looked up in the layer
of explicit calls first, then in the environment variables, then in the configuration file, and
last among the defaults. `Builder` holds the two lower layers merged and the explicit one apart,
so that variables read later still give way to an explicit call made earlier.
-/

namespace Fibers

/-- The largest unsigned number of 64 bits; as a level of concurrency it means "no bound". -/
def unbounded : Nat := Nat.pow 2 64 - 1

/-- Where a scheduler takes its time from. -/
inductive ClockKind where
  | wall
  | virtual
  deriving DecidableEq, Inhabited, Repr

/-- The text of a clock kind that is none. -/
structure ClockKindError where
  name : String
  deriving DecidableEq, Repr

/-- The wording of the fault. -/
def ClockKindError.message (e : ClockKindError) : String :=
  "expected `wall` or `virtual`, got " ++ Text.quoted e.name

namespace ClockKind

/-- The notation of a clock kind. -/
def display : ClockKind → String
  | .wall => "wall"
  | .virtual => "virtual"

/-- The name of a clock kind inside other texts. -/
def inspect : ClockKind → String
  | .wall => "Wall"
  | .virtual => "Virtual"

/-- Reads a clock kind; case and the blanks at the ends do not matter. -/
def parse (s : String) : Except ClockKindError ClockKind :=
  let t := Text.lowercase (Text.trim s)
  if t = "wall" then .ok .wall
  else if t = "virtual" then .ok .virtual
  else .error ⟨t⟩

end ClockKind

/-! ## Settings -/

/-- The settings of a runtime. -/
structure Config where
  maxOps : Nat
  maxTrace : Nat
  concurrency : Nat
  finalization : Strategy
  clock : ClockKind
  deriving DecidableEq, Repr

namespace Config

/-- The settings used where no layer gives one. -/
def standard : Config := ⟨2048, 50, unbounded, .sequential, .wall⟩

instance : Inhabited Config := ⟨standard⟩

/-- The settings with zero step counts, levels and bounds raised to one. -/
def normalize (c : Config) : Config :=
  { c with
    maxOps := max 1 c.maxOps
    concurrency := max 1 c.concurrency
    finalization := c.finalization.normalize }

/-- The text of the settings inside other texts. -/
def inspect (c : Config) : String :=
  "RuntimeConfig \x7b max_op_count: " ++ toString c.maxOps ++
    ", max_trace_count: " ++ toString c.maxTrace ++
    ", default_concurrency: " ++ toString c.concurrency ++
    ", finalization: " ++ c.finalization.inspect ++
    ", clock: " ++ c.clock.inspect ++ " \x7d"

end Config

/-- Settings that a layer may leave open. -/
structure Settings where
  maxOps : Option Nat := none
  maxTrace : Option Nat := none
  concurrency : Option Nat := none
  finalization : Option Strategy := none
  clock : Option ClockKind := none
  deriving DecidableEq, Inhabited, Repr

/-- `base` with every setting that the layer gives. -/
def Settings.over (s : Settings) (base : Config) : Config :=
  { maxOps := s.maxOps.getD base.maxOps
    maxTrace := s.maxTrace.getD base.maxTrace
    concurrency := s.concurrency.getD base.concurrency
    finalization := s.finalization.getD base.finalization
    clock := s.clock.getD base.clock }

/-! ## Rejected settings -/

/-- Why a configuration is rejected. -/
inductive ConfigError where
  | badVariable (name reason : String)
  | unreadableFile (path reason : String)
  | badFile (reason : String)
  | outOfRange (reason : String)
  deriving DecidableEq, Repr

/-- The wording of each fault. -/
def ConfigError.message : ConfigError → String
  | .badVariable name reason => "invalid value for " ++ name ++ ": " ++ reason
  | .unreadableFile path reason => "failed to read config file " ++ path ++ ": " ++ reason
  | .badFile reason => "failed to parse config: " ++ reason
  | .outOfRange reason => "invalid configuration: " ++ reason

/-! ## Environment variables -/

namespace Variables

/-- Reads a number; blanks at the ends are dropped. -/
def number (name value : String) : Except ConfigError Nat :=
  match Text.Decimal.parse (Text.trim value) with
  | .ok n => .ok n
  | .error e => .error (.badVariable name
      ("expected unsigned integer, got " ++ Text.quoted value ++ " (" ++ e.message ++ ")"))

/-- Reads a level of concurrency: a number, or one of two words for "no bound". -/
def level (name value : String) : Except ConfigError Nat :=
  let t := Text.lowercase (Text.trim value)
  if t = "unbounded" ∨ t = "max" then .ok unbounded else number name value

/-- Reads a strategy. -/
def strategy (name value : String) : Except ConfigError Strategy :=
  (Strategy.parse value).mapError fun e => .badVariable name e.message

/-- Reads a clock kind. -/
def clock (name value : String) : Except ConfigError ClockKind :=
  (ClockKind.parse value).mapError fun e => .badVariable name e.message

/-- Reads the variable `name` if it is set. -/
def read {α : Type} (vars : String → Option String) (name : String)
    (parse : String → String → Except ConfigError α) : Except ConfigError (Option α) :=
  match vars name with
  | none => .ok none
  | some value => (parse name value).map some

/-- The settings that the variables give; the first one that does not parse is the fault. -/
def settings (vars : String → Option String) : Except ConfigError Settings := do
  let maxOps ← read vars "FIBERFX_MAX_OP_COUNT" number
  let maxTrace ← read vars "FIBERFX_MAX_TRACE_COUNT" number
  let concurrency ← read vars "FIBERFX_CONCURRENCY" level
  let finalization ← read vars "FIBERFX_FINALIZATION" strategy
  let clock ← read vars "FIBERFX_CLOCK" clock
  return ⟨maxOps, maxTrace, concurrency, finalization, clock⟩

end Variables

/-! ## Layers -/

/-- The layers of a configuration: `base` holds the defaults with the file and the variables laid
over them, `explicit` what was asked for by a call. -/
structure Builder where
  base : Config := Config.standard
  explicit : Settings := {}
  deriving DecidableEq, Inhabited, Repr

namespace Builder

/-- A builder without a file. -/
def new : Builder := {}

/-- Sets the step count by a call. -/
def maxOps (b : Builder) (n : Nat) : Builder :=
  { b with explicit := { b.explicit with maxOps := some n } }

/-- Sets the trace bound by a call. -/
def maxTrace (b : Builder) (n : Nat) : Builder :=
  { b with explicit := { b.explicit with maxTrace := some n } }

/-- Sets the level of concurrency by a call. -/
def concurrency (b : Builder) (n : Nat) : Builder :=
  { b with explicit := { b.explicit with concurrency := some n } }

/-- Sets the strategy by a call. -/
def finalization (b : Builder) (s : Strategy) : Builder :=
  { b with explicit := { b.explicit with finalization := some s } }

/-- Sets the clock by a call. -/
def clock (b : Builder) (k : ClockKind) : Builder :=
  { b with explicit := { b.explicit with clock := some k } }

/-- Lays the environment variables over the lower layers. -/
def withVariables (b : Builder) (vars : String → Option String) : Except ConfigError Builder :=
  (Variables.settings vars).map fun s => { b with base := s.over b.base }

/-- The configuration that the layers give. -/
def resolve (b : Builder) : Config := (b.explicit.over b.base).normalize

/-- The text of a builder. -/
def inspect (b : Builder) : String :=
  "RuntimeBuilder \x7b config: " ++ b.resolve.inspect ++ ", .. \x7d"

end Builder

end Fibers
