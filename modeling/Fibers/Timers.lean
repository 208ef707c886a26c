import Fibers.Config
import Fibers.Time

set_option autoImplicit false

/-! # Timers

A queue of tasks over a clock. Every task has a deadline; the next task to run is the one with
the least deadline, of equal deadlines the one set first. The live timers are kept in that
order, so the queue is its own schedule.

A virtual clock moves only when it is told to. A wall clock is modelled by the instants at
which something happens: waiting moves it to the instant waited for.
-/

namespace Fibers

/-- A clock and what it shows. -/
structure Clock where
  kind : ClockKind
  now : Time
  deriving DecidableEq, Inhabited, Repr

namespace Clock

/-- Whether time moves only when it is told to. -/
def isVirtual (c : Clock) : Bool := c.kind == .virtual

/-- The clock moved forward to an instant; an instant in the past changes nothing. -/
def advanceTo (c : Clock) (t : Time) : Clock := { c with now := Time.latest c.now t }

/-- The text of a virtual clock. -/
def inspect (c : Clock) : String := "VirtualClock \x7b now: " ++ toString c.now.nanos ++ " \x7d"

/-- The text of a queue with a number of live tasks over a virtual clock. -/
def inspectQueue (c : Clock) (pending : Nat) : String :=
  "Scheduler \x7b clock: " ++ c.inspect ++ ", now: " ++ c.now.inspect ++
    ", pending: " ++ toString pending ++ " \x7d"

theorem le_advanceTo (c : Clock) (t : Time) : c.now.nanos ≤ (c.advanceTo t).now.nanos :=
  Time.le_latest_left c.now t

end Clock

/-- A live task. -/
structure Timer (τ : Type) where
  deadline : Time
  id : Nat
  task : τ

/-- Whether the first timer runs before the second. -/
def Timer.before {τ : Type} (a b : Timer τ) : Bool :=
  a.deadline.nanos < b.deadline.nanos || (a.deadline.nanos == b.deadline.nanos && a.id < b.id)

/-- A clock, the live tasks in the order they will run, the next insertion number and the number
of tasks run so far. -/
structure Timers (τ : Type) where
  clock : Clock
  live : List (Timer τ) := []
  nextId : Nat := 0
  executed : Nat := 0

namespace Timers

variable {τ : Type}

/-- A queue without tasks. -/
def on (clock : Clock) : Timers τ := { clock }

instance : Inhabited (Timers τ) := ⟨on default⟩

/-- What the clock shows. -/
def now (q : Timers τ) : Time := q.clock.now

/-- The number of live tasks. -/
def pending (q : Timers τ) : Nat := q.live.length

/-- The earliest deadline. -/
def nextDeadline? (q : Timers τ) : Option Time := q.live.head?.map (·.deadline)

/-- A timer put at its place among others. -/
def insert (t : Timer τ) : List (Timer τ) → List (Timer τ)
  | [] => [t]
  | u :: rest => if t.before u then t :: u :: rest else u :: insert t rest

/-- Sets a task to run once a delay has passed and gives its number. -/
def set (q : Timers τ) (delay : Duration) (task : τ) : Timers τ × Nat :=
  ({ q with live := insert ⟨q.now.add delay, q.nextId, task⟩ q.live, nextId := q.nextId + 1 },
    q.nextId)

/-- Drops the task with a number; `none` if it is not live (any more). -/
def cancel? (q : Timers τ) (id : Nat) : Option (Timers τ) :=
  if q.live.any (·.id == id) then some { q with live := q.live.filter (·.id != id) } else none

/-- Drops the task with a number if it is of a kind; `none` if there is none such. -/
def cancelIf? (q : Timers τ) (kind : τ → Bool) (id : Nat) : Option (Timers τ) :=
  if q.live.any (fun t => t.id == id && kind t.task) then
    some { q with live := q.live.filter fun t => !(t.id == id && kind t.task) }
  else none

/-- Takes out the next task whose deadline has come. -/
def popDue? (q : Timers τ) : Option (τ × Timers τ) :=
  match q.live with
  | [] => none
  | t :: rest =>
      if t.deadline.nanos ≤ q.now.nanos then some (t.task, { q with live := rest }) else none

/-- Moves the clock forward. -/
def advanceTo (q : Timers τ) (t : Time) : Timers τ := { q with clock := q.clock.advanceTo t }

/-- Counts a task that has run. -/
def countRun (q : Timers τ) : Timers τ := { q with executed := q.executed + 1 }

/-- A queue without tasks over a copy of the clock. -/
def fork (q : Timers τ) : Timers τ := on q.clock

/-- The text of a queue on virtual time. -/
def inspect (q : Timers τ) : String := q.clock.inspectQueue q.pending

/-! ## What each operation does to the live tasks -/

theorem length_insert (t : Timer τ) (ts : List (Timer τ)) :
    (insert t ts).length = ts.length + 1 := by
  induction ts with
  | nil => rfl
  | cons u rest ih =>
      unfold insert
      split
      · rfl
      · simp [ih]

theorem mem_insert {t u : Timer τ} {ts : List (Timer τ)} :
    u ∈ insert t ts ↔ u = t ∨ u ∈ ts := by
  induction ts with
  | nil => simp [insert]
  | cons v rest ih =>
      unfold insert
      split
      · simp
      · simp only [List.mem_cons, ih]
        constructor
        · rintro (h | h | h) <;> simp [h]
        · rintro (h | h | h) <;> simp [h]

theorem pending_set (q : Timers τ) (delay : Duration) (task : τ) :
    (q.set delay task).1.pending = q.pending + 1 := length_insert _ _

theorem now_set (q : Timers τ) (delay : Duration) (task : τ) :
    (q.set delay task).1.now = q.now := rfl

theorem now_popDue {q q' : Timers τ} {task : τ} (h : q.popDue? = some (task, q')) :
    q'.now = q.now := by
  unfold popDue? at h
  split at h
  · cases h
  · split at h
    · simp only [Option.some.injEq, Prod.mk.injEq] at h
      rw [← h.2]; rfl
    · cases h

end Timers

end Fibers
