import Fibers.Cause
import Fibers.Timers

set_option autoImplicit false

/-! # Driving a queue

The ways to run the tasks of a queue: all that are due, all up to an instant, all there are, or
all until a condition holds. A `Host` says what a task does to the system around the queue and
how the system waits. Tasks may set new tasks, without end, so every loop takes an amount of
fuel; a loop that runs out of it ends `unfinished`, and any greater amount gives the same answer
as one that suffices.
-/

namespace Fibers

/-- How a driven computation ended: with an answer, by a panic, or for want of fuel (or of
anything to wait for). -/
inductive Verdict (α : Type) where
  | finished (a : α)
  | panicked (d : Defect)
  | unfinished
  deriving DecidableEq, Repr

/-- A system `S` with a queue of tasks `τ`. `await` lets time pass up to an instant, or for as
long as it takes if there is none; it may end early, and it gives `none` if nothing can ever end
the wait. -/
structure Host (S τ : Type) where
  timers : S → Timers τ
  withTimers : S → Timers τ → S
  perform : τ → S → S × Verdict Unit
  await : Option Time → S → Option S

namespace Host

variable {S τ : Type} (host : Host S τ)

/-- Runs every task that is due, those set meanwhile included; counts the tasks on top of `ran`.
A task that panics ends the run and is not counted. -/
def runReadyFrom : Nat → Nat → S → S × Verdict Nat
  | 0, _, s => (s, .unfinished)
  | fuel + 1, ran, s =>
      match (host.timers s).popDue? with
      | none => (s, .finished ran)
      | some (task, rest) =>
          match host.perform task (host.withTimers s rest) with
          | (s, .finished ()) =>
              runReadyFrom fuel (ran + 1) (host.withTimers s (host.timers s).countRun)
          | (s, .panicked d) => (s, .panicked d)
          | (s, .unfinished) => (s, .unfinished)

/-- Runs every task that is due and gives their number. -/
def runReady (fuel : Nat) (s : S) : S × Verdict Nat := host.runReadyFrom fuel 0 s

/-- Goes from deadline to deadline up to `target`, running what is due at each. -/
def advanceLoop (fuel : Nat) (target : Time) : Nat → Nat → S → S × Verdict Nat
  | 0, _, s => (s, .unfinished)
  | rounds + 1, ran, s =>
      match (host.timers s).nextDeadline?.filter (fun d => d.nanos ≤ target.nanos) with
      | some deadline =>
          match host.await (some deadline) s with
          | none => (s, .unfinished)
          | some s =>
              match host.runReadyFrom fuel ran s with
              | (s, .finished ran) => advanceLoop fuel target rounds ran s
              | stopped => stopped
      | none =>
          match host.await (some target) s with
          | none => (s, .unfinished)
          | some s => host.runReadyFrom fuel ran s

/-- Lets a span of time pass, running the tasks as their deadlines come, and gives the number of
tasks run. -/
def advance (fuel : Nat) (span : Duration) (s : S) : S × Verdict Nat :=
  let target := (host.timers s).now.add span
  match host.runReady fuel s with
  | (s, .finished ran) => host.advanceLoop fuel target fuel ran s
  | stopped => stopped

/-- Goes from deadline to deadline until no task is left. -/
def idleLoop (fuel : Nat) : Nat → Nat → S → S × Verdict Nat
  | 0, _, s => (s, .unfinished)
  | rounds + 1, ran, s =>
      match host.runReadyFrom fuel ran s with
      | (s, .finished ran) =>
          match (host.timers s).nextDeadline? with
          | none => (s, .finished ran)
          | some deadline =>
              match host.await (some deadline) s with
              | none => (s, .unfinished)
              | some s => idleLoop fuel rounds ran s
      | stopped => stopped

/-- Runs tasks until none is left and gives their number. -/
def runUntilIdle (fuel : Nat) (s : S) : S × Verdict Nat := host.idleLoop fuel fuel 0 s

/-- Goes from deadline to deadline until `done` holds after a run of the tasks that are due. -/
def untilLoop (fuel : Nat) (done : S → Bool) : Nat → S → S × Verdict Bool
  | 0, s => (s, .unfinished)
  | rounds + 1, s =>
      match host.runReady fuel s with
      | (s, .finished _) =>
          if done s then (s, .finished true)
          else
            let next := (host.timers s).nextDeadline?
            if next.isNone && (host.timers s).clock.isVirtual then (s, .finished false)
            else
              match host.await next s with
              | none => (s, .unfinished)
              | some s => untilLoop fuel done rounds s
      | (s, .panicked d) => (s, .panicked d)
      | (s, .unfinished) => (s, .unfinished)

/-- Runs tasks until `done` holds; gives `false` if time is virtual and the tasks ran out
first. -/
def driveUntil (fuel : Nat) (done : S → Bool) (s : S) : S × Verdict Bool :=
  host.untilLoop fuel done fuel s

end Host

end Fibers
