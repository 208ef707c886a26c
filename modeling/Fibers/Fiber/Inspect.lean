import Fibers.Fiber

set_option autoImplicit false

/-! # Texts of a running system

The forms in which fibers, futures, permits and the system as a whole are shown inside messages.
Values are never shown there: whatever its type, a value is `Any`.
-/

namespace Fibers

/-- A value inside a text. -/
def Value.inspect (_ : Value) : String := "Any \x7b .. \x7d"

/-- The text of a status. -/
def FiberStatus.inspect : FiberStatus → String
  | .notStarted => "NotStarted"
  | .running b => "Running \x7b interruptible: " ++ toString b ++ " \x7d"
  | .suspended b => "Suspended \x7b interruptible: " ++ toString b ++ " \x7d"
  | .done e => "Done(" ++ e.inspect Value.inspect Value.inspect ++ ")"

/-- The text of a fiber. -/
def FiberView.inspect (v : FiberView) : String :=
  "Fiber \x7b id: " ++ v.context.id.inspect ++ ", status: " ++ v.status.inspect ++ " \x7d"

/-- The text of a future. -/
def FutureView.inspect (v : FutureView) : String :=
  "Future(" ++ Text.quoted
    (match v.outcome with
      | none => "Pending(" ++ toString v.observers ++ " observers)"
      | some .resolved => "Resolved"
      | some (.interrupted id) => "Interrupted(" ++ id.display ++ ")") ++ ")"

/-- The text of a callback. -/
def FutureView.inspectCallback (v : FutureView) : String := "AsyncCallback(" ++ v.inspect ++ ")"

/-- The text of a scope; its number is left out. -/
def ScopeView.inspect (v : ScopeView) : String :=
  "Scope \x7b id: #, owner: " ++ v.owner.inspect ++ ", state: " ++ Text.quoted v.state ++ " \x7d"

/-- The text of a permit. -/
def inspectPermit (ticket : Nat) (held : Bool) : String :=
  "Permit \x7b ticket: " ++ toString ticket ++ ", held: " ++ toString held ++ " \x7d"

/-- The text of what an observer can be removed by. -/
def inspectObserver (key : Option Nat) : String :=
  "ObserverHandle \x7b key: " ++
    (match key with
      | none => "None"
      | some k => "Some(ObserverKey(" ++ toString k ++ "))") ++
    ", .. \x7d"

/-- The text of a program: the name of its first instruction. -/
def inspectTag (tag : String) : String := "Fx(" ++ Text.quoted tag ++ ")"

/-- The configuration of a running system. -/
def Survey.config (s : Survey) : Config :=
  { maxOps := s.limits.maxOps, maxTrace := s.limits.maxTrace, concurrency := s.concurrency
    finalization := s.limits.finalization, clock := s.clock.kind }

/-- The text of a runtime. -/
def Survey.inspect (s : Survey) : String :=
  "Runtime \x7b config: " ++ s.config.inspect ++ ", roots: " ++ toString s.roots ++ ", .. \x7d"

end Fibers
