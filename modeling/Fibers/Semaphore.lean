set_option autoImplicit false

/-! # Semaphores

A semaphore has a number of permits. Every attempt to get one is made under a ticket of its own,
and a ticket either holds a permit, stands in the queue with a grant to be told by, or has
nothing. A permit that is given back goes straight to the oldest ticket in the queue, so nobody
can overtake the queue.
-/

namespace Fibers

/-- The permits, the queue (oldest first) with the grant of each ticket, and the tickets that
hold a permit. -/
structure Semaphore (γ : Type) where
  capacity : Nat
  available : Nat
  waiters : List (Nat × γ) := []
  holders : List Nat := []
  nextTicket : Nat := 0

namespace Semaphore

variable {γ : Type}

/-- A semaphore with a number of permits. -/
def withPermits (n : Nat) : Semaphore γ := { capacity := n, available := n }

instance : Inhabited (Semaphore γ) := ⟨withPermits 0⟩

/-- The number of tickets in the queue. -/
def waiting (s : Semaphore γ) : Nat := s.waiters.length

/-- Whether a ticket holds a permit. -/
def isHeld (s : Semaphore γ) (ticket : Nat) : Bool := s.holders.contains ticket

/-- A new ticket. -/
def ticket (s : Semaphore γ) : Semaphore γ × Nat :=
  ({ s with nextTicket := s.nextTicket + 1 }, s.nextTicket)

/-- Whether a permit is free and nobody is in the queue. -/
def isFree (s : Semaphore γ) : Bool := s.waiters.isEmpty && 0 < s.available

/-- Gives a free permit to a ticket. -/
def give (s : Semaphore γ) (ticket : Nat) : Semaphore γ :=
  { s with available := s.available - 1, holders := ticket :: s.holders }

/-- Takes a permit for a ticket without waiting; `none` if the ticket has to queue. A ticket that
holds a permit keeps it. -/
def take? (s : Semaphore γ) (ticket : Nat) : Option (Semaphore γ) :=
  if s.isHeld ticket then some s
  else if s.isFree then some (s.give ticket)
  else none

/-- Puts a ticket at the end of the queue. -/
def enqueue (s : Semaphore γ) (ticket : Nat) (grant : γ) : Semaphore γ :=
  { s with waiters := s.waiters ++ [(ticket, grant)] }

/-- Takes a permit under a new ticket; `none` if none is free or somebody is in the queue. -/
def tryTake? (s : Semaphore γ) : Option (Semaphore γ × Nat) :=
  if s.isFree then
    let (s, ticket) := s.ticket
    some (s.give ticket, ticket)
  else none

/-- Hands a permit that was given back to the oldest ticket in the queue, or puts it aside. -/
def handOff (s : Semaphore γ) : Semaphore γ × Option γ :=
  match s.waiters with
  | [] => ({ s with available := s.available + 1 }, none)
  | (ticket, grant) :: rest =>
      ({ s with waiters := rest, holders := ticket :: s.holders }, some grant)

/-- Gives up what a ticket has: its place in the queue or its permit. Gives the grant of the
ticket that got the permit, if one did. -/
def relinquish (s : Semaphore γ) (ticket : Nat) : Semaphore γ × Option γ :=
  if s.waiters.any (·.1 == ticket) then
    ({ s with waiters := s.waiters.filter (·.1 != ticket) }, none)
  else if s.isHeld ticket then handOff { s with holders := s.holders.erase ticket }
  else (s, none)

/-- The text of a semaphore. -/
def inspect (s : Semaphore γ) : String :=
  "Semaphore \x7b permits: " ++ toString s.available ++ ", max_permits: " ++ toString s.capacity ++
    ", waiters: " ++ toString s.waiting ++ " \x7d"

/-! ## Permits are neither made nor lost -/

theorem balance_give (s : Semaphore γ) (ticket : Nat) (h : s.isFree = true) :
    (s.give ticket).available + (s.give ticket).holders.length =
      s.available + s.holders.length := by
  simp only [isFree, Bool.and_eq_true, decide_eq_true_eq] at h
  simp only [give, List.length_cons]
  omega

theorem balance_handOff (s : Semaphore γ) :
    s.handOff.1.available + s.handOff.1.holders.length =
      s.available + s.holders.length + 1 := by
  unfold handOff
  split <;> simp only [List.length_cons] <;> omega

end Semaphore

end Fibers
