import Mathlib.Data.List.Nodup
import Mathlib.Data.List.Range
import Mathlib.Data.List.Induction
import Mathlib.Data.List.Dedup
import Fibers.Proofs.Timers.Order
import Fibers.Timers.Drive

set_option autoImplicit false

/-! # A queue on virtual time and what is done with it

A task may look at the system around it, change it, set further tasks, itself again among them, and cancel
tasks; what it does next may depend on all it has seen. A `Desk` is a queue on virtual time with such tasks,
what is around it, and the history of the queue: which task was set when and for how long, which one was
cancelled and what the answer was, which one ran and the time it was given, and when the clock was moved.

The desks that are reached by calls that return, in any order, are the subject of the next module.
-/

namespace Fibers

variable {σ τ : Type}

/-- What a task sees of the system: what is around the queue, what the clock shows, how many tasks are live,
how many have run, and the next deadline. -/
structure Sight (σ : Type) where
  board : σ
  now : Time
  pending : Nat
  executed : Nat
  next : Option Time

/-- What a task does once it runs. -/
inductive Chore (σ τ : Type) where
  | done
  | look (k : Sight σ → Chore σ τ)
  | write (board : σ) (k : Chore σ τ)
  | set (delay : Duration) (task : τ) (k : Nat → Chore σ τ)
  | cancel (id : Nat) (k : Bool → Chore σ τ)

/-- A task with the number it was set under. -/
structure Job (τ : Type) where
  number : Nat
  task : τ

/-- What happens to a queue. -/
inductive Happening where
  | set (id : Nat) (delay : Duration)
  | cancel (id : Nat) (answer : Bool)
  | run (id : Nat) (given : Time)
  | moved

/-- What happened, and what the clock showed. -/
structure Entry where
  time : Time
  what : Happening

namespace Entry

/-- The number of the task that was set, and its deadline. -/
def due? : Entry → Option (Nat × Time)
  | ⟨time, .set id delay⟩ => some (id, time.add delay)
  | ⟨_, .cancel _ _⟩ => none
  | ⟨_, .run _ _⟩ => none
  | ⟨_, .moved⟩ => none

/-- The number of the task that ran. -/
def ran? : Entry → Option Nat
  | ⟨_, .run id _⟩ => some id
  | ⟨_, .set _ _⟩ => none
  | ⟨_, .cancel _ _⟩ => none
  | ⟨_, .moved⟩ => none

/-- The number of the task that was live and was cancelled. -/
def cancelled? : Entry → Option Nat
  | ⟨_, .cancel id true⟩ => some id
  | ⟨_, .cancel _ false⟩ => none
  | ⟨_, .set _ _⟩ => none
  | ⟨_, .run _ _⟩ => none
  | ⟨_, .moved⟩ => none

theorem ran?_eq_some {e : Entry} {id : Nat} : e.ran? = some id ↔ ∃ given, e.what = .run id given := by
  obtain ⟨time, what⟩ := e
  cases what <;> simp [ran?]

/-- A task has run or was cancelled. -/
def Ends (e : Entry) (id : Nat) : Prop := e.ran? = some id ∨ e.cancelled? = some id

end Entry

/-- A task is live after a history, with a deadline: it was set for it, and has not run and was not cancelled
since. -/
def Live (past : List Entry) (id : Nat) (deadline : Time) : Prop :=
  (∃ e ∈ past, e.due? = some (id, deadline)) ∧ ∀ e ∈ past, ¬ e.Ends id

/-- A queue, what is around it, and its history. -/
structure Desk (σ τ : Type) where
  timers : Timers (Job τ)
  board : σ
  history : List Entry := []

namespace Desk

variable (d : Desk σ τ)

/-- A new queue on a virtual clock that shows a time. -/
def start (now : Time) (board : σ) : Desk σ τ := { timers := .on ⟨.virtual, now⟩, board }

/-- Adds to the history. -/
def record (what : Happening) : Desk σ τ := { d with history := d.history ++ [⟨d.timers.now, what⟩] }

/-- What a task sees. -/
def sight : Sight σ where
  board := d.board
  now := d.timers.now
  pending := d.timers.pending
  executed := d.timers.executed
  next := d.timers.nextDeadline?

/-- Sets a task and gives its number. -/
def set (delay : Duration) (task : τ) : Desk σ τ × Nat :=
  let (timers, id) := d.timers.set delay ⟨d.timers.nextId, task⟩
  (({ d with timers } : Desk σ τ).record (.set id delay), id)

/-- Cancels a task and says whether it was live. -/
def cancel (id : Nat) : Desk σ τ × Bool :=
  match d.timers.cancel? id with
  | some timers => (({ d with timers } : Desk σ τ).record (.cancel id true), true)
  | none => (d.record (.cancel id false), false)

/-- Moves the clock forward. -/
def moveTo (t : Time) : Desk σ τ := ({ d with timers := d.timers.advanceTo t } : Desk σ τ).record .moved

end Desk

/-- Does what a task does. -/
def Chore.run : Chore σ τ → Desk σ τ → Desk σ τ
  | .done, d => d
  | .look k, d => (k d.sight).run d
  | .write board k, d => k.run { d with board }
  | .set delay task k, d => (k (d.set delay task).2).run (d.set delay task).1
  | .cancel id k, d => (k (d.cancel id).2).run (d.cancel id).1

namespace Desk

-- what each task does, given the time at which it runs
variable (body : τ → Time → Chore σ τ)

/-- Runs a task, which is given the time. -/
def perform (job : Job τ) (d : Desk σ τ) : Desk σ τ :=
  (body job.task d.timers.now).run (d.record (.run job.number d.timers.now))

/-- The desk as a host for its queue. Waiting moves the clock, and takes no time if there is nothing to wait
for. -/
def host : Host (Desk σ τ) (Job τ) where
  timers := Desk.timers
  withTimers d timers := { d with timers }
  perform job d := (d.perform body job, .finished ())
  await deadline d := some (match deadline with
    | some t => d.moveTo t
    | none => d)

/-- The desks that are reached from a new queue, made at any time, by calls that return. What is around the
queue may be changed in between. -/
inductive Reached : Desk σ τ → Prop where
  | start (now : Time) (board : σ) : Reached (start now board)
  | write {d : Desk σ τ} (h : Reached d) (board : σ) : Reached { d with board }
  | set {d : Desk σ τ} (h : Reached d) (delay : Duration) (task : τ) :
      Reached (d.set delay task).1
  | cancel {d : Desk σ τ} (h : Reached d) (id : Nat) : Reached (d.cancel id).1
  | runReady {d d' : Desk σ τ} {fuel ran : Nat} (h : Reached d)
      (hreturns : (host body).runReady fuel d = (d', .finished ran)) : Reached d'
  | advance {d d' : Desk σ τ} {fuel ran : Nat} (h : Reached d) (span : Duration)
      (hreturns : (host body).advance fuel span d = (d', .finished ran)) : Reached d'
  | runUntilIdle {d d' : Desk σ τ} {fuel ran : Nat} (h : Reached d)
      (hreturns : (host body).runUntilIdle fuel d = (d', .finished ran)) : Reached d'
  | driveUntil {d d' : Desk σ τ} {fuel : Nat} {answer : Bool} (h : Reached d) (done : Desk σ τ → Bool)
      (hreturns : (host body).driveUntil fuel done d = (d', .finished answer)) : Reached d'

end Desk

end Fibers
