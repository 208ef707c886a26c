import Fibers.Trace

set_option autoImplicit false

/-! # Causes

A cause records everything that went wrong in a fiber: typed failures, defects and
interruptions at its leaves, joined by `andThen` for what happened one after the other and by
`both` for what happened side by side, with traces attached to any part. Only the order of the
leaves from left to right carries meaning; the queries below are functions of `leaves`.

Mapping the typed failures comes in two forms. `map` and `tryMap` take a function, `mapM` and
`tryMapM` a computation, which is run once for each typed failure in the order of the leaves.
-/

namespace Fibers

/-- What a panic, or a broken promise inside the library, leaves behind. -/
structure Defect where
  message : String
  deriving DecidableEq, Inhabited, Repr

/-- The text of a defect. -/
def Defect.display (d : Defect) : String := "defect: " ++ d.message

/-- Why a fiber failed. -/
inductive Cause (ε : Type) where
  | fail (e : ε)
  | die (d : Defect)
  | interrupt (id : FiberId)
  | andThen (first next : Cause ε)
  | both (left right : Cause ε)
  | traced (c : Cause ε) (t : Trace)
  deriving DecidableEq, BEq, Repr

/-- One leaf of a cause. -/
inductive Leaf (ε : Type) where
  | fail (e : ε)
  | die (d : Defect)
  | interrupt (id : FiberId)
  deriving DecidableEq, BEq, Repr

namespace Leaf

variable {ε : Type}

/-- The error of a leaf that is a typed failure. -/
def failure? : Leaf ε → Option ε
  | .fail e => some e
  | _ => none

/-- The defect of a leaf that is one. -/
def defect? : Leaf ε → Option Defect
  | .die d => some d
  | _ => none

/-- The id of a leaf that is an interruption. -/
def interruptor? : Leaf ε → Option FiberId
  | .interrupt id => some id
  | _ => none

end Leaf

namespace Cause

variable {ε φ : Type}

instance : Inhabited (Cause ε) := ⟨.interrupt .nobody⟩

/-! ## Building -/

/-- A defect with a message. -/
def dieWith (message : String) : Cause ε := .die ⟨message⟩

/-- Interruptions by every id, side by side; none for no ids. -/
def interrupts? : List FiberId → Option (Cause ε)
  | [] => none
  | id :: rest => some (rest.foldl (fun c next => .both c (.interrupt next)) (.interrupt id))

/-- `c` followed by every cause of `rest`. -/
def andThenAll (c : Cause ε) (rest : List (Cause ε)) : Cause ε := rest.foldl .andThen c

/-- `c` with a trace attached. An empty trace adds nothing, and a cause that is traced at the top
keeps the trace of the point where it was raised. -/
def withTrace (c : Cause ε) (t : Trace) : Cause ε :=
  if t.isEmpty then c
  else match c with
    | .traced _ _ => c
    | c => .traced c t

/-! ## Queries -/

/-- The leaves from left to right. -/
def leaves : Cause ε → List (Leaf ε)
  | .fail e => [.fail e]
  | .die d => [.die d]
  | .interrupt id => [.interrupt id]
  | .andThen a b => a.leaves ++ b.leaves
  | .both a b => a.leaves ++ b.leaves
  | .traced c _ => c.leaves

/-- The typed failures, in order. -/
def failures (c : Cause ε) : List ε := c.leaves.filterMap Leaf.failure?

/-- The defects, in order. -/
def defects (c : Cause ε) : List Defect := c.leaves.filterMap Leaf.defect?

/-- The interrupting fibers, in leaf order. -/
def interruptors (c : Cause ε) : List FiberId := c.leaves.filterMap Leaf.interruptor?

/-- The first typed failure. -/
def firstFailure? (c : Cause ε) : Option ε := c.failures.head?

/-- Whether every leaf is an interruption. -/
def isInterruptedOnly (c : Cause ε) : Bool := c.leaves.all fun leaf => leaf.interruptor?.isSome

/-- Whether every leaf is an interruption by one fiber. -/
def isInterruptedOnlyBy (c : Cause ε) (id : FiberId) : Bool :=
  c.leaves.all fun leaf => leaf.interruptor? == some id

/-- Whether some leaf is a defect. -/
def isDie (c : Cause ε) : Bool := !c.defects.isEmpty

/-- The attached traces, from left to right, outer before inner. -/
def traces : Cause ε → List Trace
  | .andThen a b => a.traces ++ b.traces
  | .both a b => a.traces ++ b.traces
  | .traced c t => t :: c.traces
  | _ => []

/-- The cause without its traces. -/
def stripTraces : Cause ε → Cause ε
  | .andThen a b => .andThen a.stripTraces b.stripTraces
  | .both a b => .both a.stripTraces b.stripTraces
  | .traced c _ => c.stripTraces
  | leaf => leaf

/-! ## Mapping the typed failures -/

/-- Applies `f` to every typed failure. -/
def map (f : ε → φ) : Cause ε → Cause φ
  | .fail e => .fail (f e)
  | .die d => .die d
  | .interrupt id => .interrupt id
  | .andThen a b => .andThen (a.map f) (b.map f)
  | .both a b => .both (a.map f) (b.map f)
  | .traced c t => .traced (c.map f) t

/-- Applies `f` to every typed failure; a failure it rejects becomes that defect in place. -/
def tryMap (f : ε → Except Defect φ) : Cause ε → Cause φ
  | .fail e => match f e with
    | .ok x => .fail x
    | .error d => .die d
  | .die d => .die d
  | .interrupt id => .interrupt id
  | .andThen a b => .andThen (a.tryMap f) (b.tryMap f)
  | .both a b => .both (a.tryMap f) (b.tryMap f)
  | .traced c t => .traced (c.tryMap f) t

/-- Runs `f` on every typed failure, in leaf order. -/
def mapM {m : Type → Type} [Monad m] (f : ε → m φ) : Cause ε → m (Cause φ)
  | .fail e => do return .fail (← f e)
  | .die d => pure (.die d)
  | .interrupt id => pure (.interrupt id)
  | .andThen a b => do
      let a' ← a.mapM f
      let b' ← b.mapM f
      return .andThen a' b'
  | .both a b => do
      let a' ← a.mapM f
      let b' ← b.mapM f
      return .both a' b'
  | .traced c t => do return .traced (← c.mapM f) t

/-- Runs `f` on every typed failure, in leaf order; a failure it rejects becomes that defect in
place. -/
def tryMapM {m : Type → Type} [Monad m] (f : ε → m (Except Defect φ)) : Cause ε → m (Cause φ)
  | .fail e => do
      match ← f e with
      | .ok x => return .fail x
      | .error d => return .die d
  | .die d => pure (.die d)
  | .interrupt id => pure (.interrupt id)
  | .andThen a b => do
      let a' ← a.tryMapM f
      let b' ← b.tryMapM f
      return .andThen a' b'
  | .both a b => do
      let a' ← a.tryMapM f
      let b' ← b.tryMapM f
      return .both a' b'
  | .traced c t => do return .traced (← c.tryMapM f) t

end Cause

end Fibers
