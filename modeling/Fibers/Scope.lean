import Fibers.Cell
import Fibers.Value

set_option autoImplicit false

/-! # Scopes

A scope keeps finalizers until it is closed. It is open until the first request to close it,
which fixes the exit and freezes the finalizers. One party then claims the finalizers, runs them
and publishes the final exit; from then on the scope is closed.

Fibers that want to know of the first request stand on the list of hooks. A forked scope is a
finalizer of its parent, and it remembers the handle of that finalizer so that it can leave the
parent when it is closed first.
-/

namespace Fibers

/-- A fiber that waits, and the token that its next resumption has to show. -/
structure Wake where
  fiber : Key .fiber
  token : Nat
  deriving DecidableEq, Repr

/-- Where a scope is in its life. Finalizers stand under the keys they were registered with. A
closing scope has none to give once they have been claimed. -/
inductive ScopeState (φ : Type) where
  | opened (finalizers : List (Nat × φ)) (hooks : List (Key .fiber)) (nextKey : Nat)
  | closing (exit : AnyExit) (unclaimed : Option (List (Nat × φ)))
  | closed (exit : AnyExit)

/-- A scope whose finalizers are of type `φ`. -/
structure Scope (φ : Type) where
  owner : FiberId
  strategy : Strategy
  state : ScopeState φ := .opened [] [] 0
  closed : Cell AnyExit Wake := .fresh
  parent : Option Handle := none

namespace Scope

variable {φ : Type}

/-- An open scope without finalizers. -/
def new (owner : FiberId) (strategy : Strategy) : Scope φ := { owner, strategy }

/-- A scope that was never made is as good as one that is closed. -/
instance : Inhabited (Scope φ) := ⟨⟨.nobody, .sequential, .closed default, .fresh, none⟩⟩

/-- Whether nobody has asked to close the scope. -/
def isOpen (s : Scope φ) : Bool :=
  match s.state with
  | .opened _ _ _ => true
  | _ => false

/-- Whether the final exit is published. -/
def isClosed (s : Scope φ) : Bool :=
  match s.state with
  | .closed _ => true
  | _ => false

/-- The published exit. -/
def exit? (s : Scope φ) : Option AnyExit :=
  match s.state with
  | .closed e => some e
  | _ => none

/-- The exit that the first request to close the scope gave. -/
def requested? (s : Scope φ) : Option AnyExit :=
  match s.state with
  | .opened _ _ _ => none
  | .closing e _ => some e
  | .closed e => some e

/-- The number of finalizers that are registered. -/
def size (s : Scope φ) : Nat :=
  match s.state with
  | .opened fs _ _ => fs.length
  | _ => 0

/-- Registers a finalizer and gives its key; `none` if the scope is not open. -/
def register? (s : Scope φ) (f : φ) : Option (Scope φ × Nat) :=
  match s.state with
  | .opened fs hooks key =>
      some ({ s with state := .opened (fs ++ [(key, f)]) hooks (key + 1) }, key)
  | _ => none

/-- The finalizer under a key, if it is registered (still). -/
def find? (s : Scope φ) (key : Nat) : Option φ :=
  match s.state with
  | .opened fs _ _ => (fs.find? (·.1 == key)).map (·.2)
  | _ => none

/-- Takes a finalizer out; `none` if it is not registered (any more). -/
def take? (s : Scope φ) (key : Nat) : Option (Scope φ × φ) :=
  match s.state with
  | .opened fs hooks next =>
      (fs.find? (·.1 == key)).map fun f =>
        ({ s with state := .opened (fs.filter (·.1 != key)) hooks next }, f.2)
  | _ => none

/-- Puts a fiber on the list of hooks; `none` if the scope is not open. -/
def hook? (s : Scope φ) (f : Key .fiber) : Option (Scope φ) :=
  match s.state with
  | .opened fs hooks next => some { s with state := .opened fs (hooks ++ [f]) next }
  | _ => none

/-- What the first request to close a scope sets off: the fibers to tell, and the handle by which
the scope leaves its parent. -/
structure Closing where
  hooks : List (Key .fiber)
  parent : Option Handle

/-- The first request to close the scope; `none` if it is not open. -/
def requestClose? (s : Scope φ) (exit : AnyExit) : Option (Scope φ × Closing) :=
  match s.state with
  | .opened fs hooks _ =>
      some ({ s with state := .closing exit (some fs), parent := none },
        { hooks, parent := s.parent })
  | _ => none

/-- Claims the finalizers with their keys, in the order they were registered; `none` if there is
nothing to claim. -/
def claim? (s : Scope φ) : Option (Scope φ × AnyExit × List (Nat × φ)) :=
  match s.state with
  | .closing exit (some fs) => some ({ s with state := .closing exit none }, exit, fs)
  | _ => none

/-- Publishes the final exit; gives the fibers that wait for it. -/
def publish (s : Scope φ) (exit : AnyExit) : Scope φ × List Wake :=
  match s.closed.settle? (.resolved exit) with
  | some (cell, wakes) => ({ s with state := .closed exit, closed := cell }, wakes)
  | none => ({ s with state := .closed exit }, [])

/-- The name of the state inside other texts. -/
def inspectState (s : Scope φ) : String :=
  match s.state with
  | .opened fs _ _ => "Open(" ++ toString fs.length ++ ")"
  | .closing _ _ => "Closing"
  | .closed _ => "Closed"

/-! ## The life of a scope -/

theorem isOpen_of_requestClose {s s' : Scope φ} {e : AnyExit} {c : Closing}
    (h : s.requestClose? e = some (s', c)) : s.isOpen = true ∧ s'.isOpen = false := by
  unfold requestClose? at h
  split at h
  · rename_i heq
    simp only [Option.some.injEq, Prod.mk.injEq] at h
    rw [← h.1]
    simp [isOpen, heq]
  · cases h

theorem requestClose?_eq_none_iff (s : Scope φ) (e : AnyExit) :
    s.requestClose? e = none ↔ s.isOpen = false := by
  unfold requestClose? isOpen
  split <;> simp

theorem claim?_of_claim {s s' : Scope φ} {e : AnyExit} {fs : List (Nat × φ)}
    (h : s.claim? = some (s', e, fs)) : s'.claim? = none := by
  unfold claim? at h
  split at h
  · simp only [Option.some.injEq, Prod.mk.injEq] at h
    rw [← h.1]
    rfl
  · cases h

end Scope

end Fibers
