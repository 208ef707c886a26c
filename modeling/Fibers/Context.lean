import Fibers.Config
import Fibers.FiberId
import Fibers.Store

set_option autoImplicit false

/-! # Contexts

What a fiber knows about itself from its start to its end: its id, its map of fiber references,
how many of its children may run at once, and the fiber that forked it. The limits are those of
the platform that all fibers of a runtime share.
-/

namespace Fibers

/-- The limits shared by the fibers of a runtime: the steps a fiber takes before it yields, the
frames kept of a trace, and the strategy of root scopes. -/
structure Limits where
  maxOps : Nat
  maxTrace : Nat
  finalization : Strategy
  deriving DecidableEq, Repr

namespace Limits

/-- The limits of a platform that nobody configured. -/
def standard : Limits := ⟨Config.standard.maxOps, Config.standard.maxTrace, .sequential⟩

instance : Inhabited Limits := ⟨standard⟩

/-- The limits that a configuration gives. -/
def ofConfig (c : Config) : Limits := ⟨max 1 c.maxOps, c.maxTrace, c.finalization⟩

/-- The text of a platform on which `allocated` fiber numbers were handed out. -/
def inspect (l : Limits) (allocated : Nat) : String :=
  "Platform \x7b max_op_count: " ++ toString l.maxOps ++ ", max_trace_count: " ++
    toString l.maxTrace ++ ", allocated: " ++ toString allocated ++ ", finalization: " ++
    l.finalization.inspect ++ ", .. \x7d"

end Limits

/-- The fixed part of a fiber. -/
structure Context where
  id : FiberId
  limits : Limits
  refs : Key .refs
  concurrency : Nat
  interruptible : Bool
  parent : Option FiberId
  deriving DecidableEq, Repr

namespace Context

/-- The context of a root fiber. -/
def root (id : FiberId) (limits : Limits) (refs : Key .refs) (concurrency : Nat) : Context :=
  { id, limits, refs, concurrency := max 1 concurrency, interruptible := true, parent := none }

instance : Inhabited Context := ⟨root .nobody .standard ⟨0⟩ 1⟩

/-- The context of a child; it takes over the level of concurrency unless it is given one. -/
def child (c : Context) (id : FiberId) (refs : Key .refs) (concurrency : Option Nat) : Context :=
  { id, limits := c.limits, refs, concurrency := max 1 (concurrency.getD c.concurrency),
    interruptible := c.interruptible, parent := some c.id }

/-- The text of a context. -/
def inspect (c : Context) : String :=
  "FiberContext \x7b fiber_id: " ++ c.id.inspect ++ ", concurrency_level: " ++
    toString c.concurrency ++ ", parent: " ++
    (match c.parent with
      | none => "None"
      | some p => "Some(" ++ p.inspect ++ ")") ++
    ", .. \x7d"

end Context

end Fibers
