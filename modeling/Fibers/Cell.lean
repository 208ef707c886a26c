import Fibers.FiberId

set_option autoImplicit false

/-! # Cells that settle once

A cell waits for one of two outcomes: it is resolved with a value, or interrupted by a fiber.
The first outcome stays for ever. While it waits, observers are kept under keys in the order
they were added; the one transition hands all of them out, and an observer that comes later is
not kept at all but served at once.

The cell says which observers are due. Serving them is left to the owner of the cell, who knows
what an observer is.
-/

namespace Fibers

/-- The outcome of a cell. -/
inductive Settled (α : Type) where
  | resolved (value : α)
  | interrupted (id : FiberId)
  deriving DecidableEq, Repr

/-- The outcome with its value replaced. -/
def Settled.map {α β : Type} (f : α → β) : Settled α → Settled β
  | .resolved a => .resolved (f a)
  | .interrupted id => .interrupted id

/-- A place that settles once, with the observers waiting for it. -/
inductive Cell (α ω : Type) where
  | pending (observers : List (Nat × ω)) (nextKey : Nat)
  | settled (outcome : Settled α)

namespace Cell

variable {α ω : Type}

/-- A cell that nobody observes. -/
def fresh : Cell α ω := .pending [] 0

instance : Inhabited (Cell α ω) := ⟨fresh⟩

/-- The outcome, once there is one. -/
def outcome? : Cell α ω → Option (Settled α)
  | .pending _ _ => none
  | .settled s => some s

/-- Whether there is no outcome yet. -/
def isPending (c : Cell α ω) : Bool := c.outcome?.isNone

/-- The observers waiting, in the order they were added. -/
def observers : Cell α ω → List (Nat × ω)
  | .pending os _ => os
  | .settled _ => []

/-- Settles the cell and hands out the observers in the order they were added; `none` if the
cell has an outcome already. -/
def settle? (c : Cell α ω) (outcome : Settled α) : Option (Cell α ω × List ω) :=
  match c with
  | .pending os _ => some (.settled outcome, os.map (·.2))
  | .settled _ => none

/-- Keeps an observer and gives its key; `none` if the cell has an outcome already. -/
def attach? (c : Cell α ω) (o : ω) : Option (Cell α ω × Nat) :=
  match c with
  | .pending os key => some (.pending (os ++ [(key, o)]) (key + 1), key)
  | .settled _ => none

/-- Drops the observer under a key; `none` if it is not kept (any more). -/
def forget? (c : Cell α ω) (key : Nat) : Option (Cell α ω) :=
  match c with
  | .pending os next =>
      if os.any (·.1 == key) then some (.pending (os.filter fun o => o.1 != key) next) else none
  | .settled _ => none

/-- Drops the observer under a key if it is of a kind; `none` if there is none such. -/
def forgetIf? (c : Cell α ω) (kind : ω → Bool) (key : Nat) : Option (Cell α ω) :=
  match c with
  | .pending os next =>
      if os.any (fun o => o.1 == key && kind o.2) then
        some (.pending (os.filter fun o => !(o.1 == key && kind o.2)) next)
      else none
  | .settled _ => none

/-! ## The first outcome stays -/

theorem outcome?_settle {c c' : Cell α ω} {s : Settled α} {os : List ω}
    (h : c.settle? s = some (c', os)) : c'.outcome? = some s := by
  cases c with
  | pending _ _ =>
      simp only [settle?, Option.some.injEq, Prod.mk.injEq] at h
      rw [← h.1]; rfl
  | settled _ => cases h

theorem settle?_isSome (c : Cell α ω) (s : Settled α) :
    (c.settle? s).isSome = c.isPending := by
  cases c <;> rfl

end Cell

/-! ## Reactions

What an observer that belongs to the program does when it is served: a tree of notes on the
board, of dealings with the very cell that has just settled, and of panics. Since the cell is
settled by then, settling it again is refused, it has no observers, and a further observer is
served on the spot. -/

/-- The behaviour of one observer over a board of type `σ`. -/
inductive Reaction (σ : Type) where
  | stop
  | panic (message : String)
  | note (write : σ → σ) (next : Reaction σ)
  | settle (next : Bool → Reaction σ)
  | look (next : Bool → Nat → Reaction σ)
  | observe (inner : Reaction σ) (next : Option Nat → Reaction σ)

/-- Serves an observer. A panic ends it; what it wrote before stays. -/
def Reaction.run {σ : Type} : Reaction σ → σ → σ
  | .stop, s => s
  | .panic _, s => s
  | .note write next, s => next.run (write s)
  | .settle next, s => (next false).run s
  | .look next, s => (next false 0).run s
  | .observe inner next, s => (next none).run (inner.run s)

end Fibers
