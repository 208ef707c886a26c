import Fibers.World.Drive

set_option autoImplicit false

/-! # The lab

A lab runs programs on virtual time: nothing happens until the lab is driven, and everything
happens in an order that depends on nothing but the programs. A lab test drives the lab until it
is idle and then looks for root fibers that are still alive.
-/

namespace Fibers

/-- The settings of a lab. -/
structure LabConfig where
  maxOps : Nat := Config.standard.maxOps
  maxTrace : Nat := Config.standard.maxTrace
  concurrency : Nat := unbounded
  finalization : Strategy := .sequential
  panicOnLeak : Bool := true
  deriving DecidableEq, Inhabited, Repr

/-- The settings of the runtime of a lab. -/
def LabConfig.config (c : LabConfig) : Config :=
  Config.normalize
    { maxOps := c.maxOps, maxTrace := c.maxTrace, concurrency := c.concurrency
      finalization := c.finalization, clock := .virtual }

namespace World

variable {σ : Type}

/-- Lets time pass up to an instant; an instant in the past lets no time pass. -/
def advanceTo (fuel : Nat) (t : Time) (w : World σ) : World σ × Verdict Nat :=
  (host fuel).advance fuel (t.since w.now) w

/-- Whether no task is queued and no root fiber is alive. -/
def isQuiescent (w : World σ) : Bool := w.timers.pending == 0 && w.roots.isEmpty

/-- Drives a lab until it is idle. A root fiber that is then still alive has leaked, and unless
the settings tolerate that, the test panics. -/
def endLab (fuel : Nat) (c : LabConfig) (w : World σ) : World σ × Verdict Unit :=
  match (host fuel).runUntilIdle fuel w with
  | (w, .finished _) =>
      let leaked := w.roots.length
      if c.panicOnLeak && leaked != 0 then
        (w, .panicked ⟨"Lab runtime leaked " ++ toString leaked ++ " root fiber(s)"⟩)
      else (w, .finished ())
  | (w, .panicked d) => (w, .panicked d)
  | (w, .unfinished) => (w, .unfinished)

end World

end Fibers
