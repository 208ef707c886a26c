import Mathlib.Data.List.Nodup
import Mathlib.Data.List.Perm.Subperm
import Mathlib.Tactic.IntervalCases
import Fibers.Proofs.Finalizers.Overtaking
import Fibers.Proofs.Semaphores.Conserved

set_option autoImplicit false

/-! # Who is inside a guarded program

A `Guard` is one execution of an instruction that runs a program under a permit of a semaphore. It has a
ticket, which no other execution at that semaphore has. The fiber is inside once the ticket has got a
permit, as long as it can go on with the program. There are never more tickets with a permit than there
are permits. So if more executions are inside than that, some of them have been robbed: their permits
were given up while they were inside. That is what happens to a fiber that is masked when the scope of
its parent closes.
-/

namespace Fibers

variable {σ : Type}

/-- An execution of an instruction that runs a program under a permit. -/
structure Guard (r : Run σ) where
  entry : Nat
  fiber : Key .fiber
  state : Fiber σ
  machine : Machine σ
  semaphore : Key .semaphore
  program : Program σ
  found : Semaphore (Key .future)
  works : (r.moment entry).Works fiber state machine
  instruction : machine.control = .instruct (.duty (.guarded semaphore program))
  made : (r.moment entry).world.semaphores.get? semaphore = some found

namespace Guard

variable {r : Run σ} (g : Guard r)

/-- The ticket of the execution. -/
def ticket : Nat := g.found.nextTicket

/-- The stack of the fiber at the start of the program; the handle is that of the finalizer that gives
the permit up. -/
def frames (h : Option Handle) : List (Waiting σ) :=
  .finalizer h (.relinquish g.semaphore g.ticket) :: g.machine.stack

/-- The ticket has a permit. -/
def Holds (k : Nat) : Prop := g.ticket ∈ ((r.moment k).world.semaphore g.semaphore).holders

/-- The fiber is not to leave its program, which it has not left, at its next step. -/
def Free (k : Nat) : Prop :=
  ∃ y m, (r.moment k).world.fibers.get? g.fiber = some y ∧ (r.moment k).machine? g.fiber = some m ∧
    (m.exiting = true ∨ y.mustLeave = false)

/-- The ticket has got a permit, and the fiber can go on with the program. -/
def Inside (k : Nat) : Prop :=
  (∃ i h, g.entry ≤ i ∧ r.Keeps g.fiber i (g.frames h) k ∧ ∃ l, i < l ∧ l ≤ k ∧ g.Holds l) ∧ g.Free k

/-- The moment after, the semaphore is past the ticket. -/
theorem issued : (r.moment (g.entry + 1)).world.semaphores.get? g.semaphore =
    some g.found.ticket.1 := by
  have hget : ((r.moment g.entry).world.count g.fiber).semaphores.get? g.semaphore = some g.found :=
    g.made
  have hread := World.semaphore_of_get hget
  rw [Run.advance_of_turn g.works.turn, World.advance_instruct g.works.here g.instruction]
  simp only [World.instruct, World.attend, World.enter, World.conclude, hread]
  rw [Store.get?_set_of_some hget]

/-- A fiber that is free at a moment was so before. -/
theorem Free.before {g : Guard r} {i j k : Nat} {h : Option Handle} (hfree : g.Free k)
    (hentry : g.entry ≤ i) (hkeeps : r.Keeps g.fiber i (g.frames h) k) (hij : i < j) (hjk : j ≤ k) :
    g.Free j := by
  obtain ⟨y, hy, -⟩ := r.onward (Nat.le_trans hentry (Nat.le_of_lt hij)) g.works.fiber
  obtain ⟨m, hm, -⟩ := hkeeps.2 j hij hjk
  refine ⟨y, m, hy, hm, ?_⟩
  -- who has to leave has not moved since, so it would have to leave still
  by_contra hbound
  simp only [not_or, Bool.not_eq_true, Bool.not_eq_false] at hbound
  obtain ⟨y₁, m₁, hstands, hexiting, hleave⟩ :=
    Run.stands_bound (List.cons_ne_nil _ _) hkeeps hij hjk hy hm hbound
  obtain ⟨y₂, m₂, hy₂, hm₂, hfree₂⟩ := hfree
  obtain rfl := Option.some.inj (hy₂.symm.trans hstands.after)
  obtain rfl := Option.some.inj (hm₂.symm.trans hstands.machine')
  rcases hfree₂ with h | h
  · cases hexiting.symm.trans h
  · cases hleave.symm.trans h

/-- An execution that is inside has been so since its ticket got its permit. -/
theorem Inside.before {g : Guard r} {k : Nat} (h : g.Inside k) :
    ∃ l, l ≤ k ∧ g.Holds l ∧ ∀ j, l ≤ j → j ≤ k → g.Inside j := by
  obtain ⟨⟨i, handle, hentry, hkeeps, l, hil, hlk, hholds⟩, hfree⟩ := h
  refine ⟨l, hlk, hholds, fun j hlj hjk => ?_⟩
  have hij : i < j := Nat.lt_of_lt_of_le hil hlj
  exact ⟨⟨i, handle, hentry, hkeeps.before hij hjk, l, hil, hlj, hholds⟩,
    hfree.before hentry hkeeps hij hjk⟩

end Guard

end Fibers
