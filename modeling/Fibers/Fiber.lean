import Fibers.Program

set_option autoImplicit false

/-! # Fibers

A fiber that has started and is not done is a `Machine` that waits for its next turn: the control
that it works on next and a stack of frames that wait for a value or a failure. Beside the
machine a fiber keeps four stacks of its own, which tell what holds at the point it has reached:
the semaphore that bounds its forks, whether it can be interrupted, its services and the labels
around it. Every region that pushes one of them pushes a frame that pops it again. What a fiber
was created with lies at the bottom and is never popped.
-/

namespace Fibers

/-- A stack with a bottom that is never popped; the newest element comes first. -/
structure Stack (α : Type) where
  bottom : α
  pushed : List α := []

namespace Stack

variable {α : Type}

/-- The newest element. -/
def top (s : Stack α) : α := s.pushed.headD s.bottom

/-- Adds an element. -/
def push (s : Stack α) (a : α) : Stack α := { s with pushed := a :: s.pushed }

/-- Drops the newest element; the bottom stays. -/
def pop (s : Stack α) : Stack α := { s with pushed := s.pushed.tail }

/-- Drops all but the bottom. -/
def unwind (s : Stack α) : Stack α := { s with pushed := [] }

theorem pop_push (s : Stack α) (a : α) : (s.push a).pop = s := rfl

theorem top_push (s : Stack α) (a : α) : (s.push a).top = a := rfl

end Stack

/-! ## Machines -/

/-- Which stack of a fiber a frame pops. -/
inductive Restore where
  | interruptible
  | semaphore
  | services
  | label
  deriving DecidableEq, Repr

/-- What a machine does next. -/
inductive Control (σ : Type) where
  | start (p : Program σ)
  | instruct (p : Program σ)
  | value (v : Value)
  | failure (c : AnyCause)
  | leave (exit : Option AnyExit)

/-- The control that ends a part of a program with an exit. -/
def Control.ofExit {σ : Type} : AnyExit → Control σ
  | .success v => .value v
  | .failure c => .failure c

/-- What waits for a value or a failure. -/
inductive Waiting (σ : Type) where
  | map (k : Cont σ)
  | fold (h : Handler σ) (k : Cont σ)
  | finalizer (h : Option Handle) (fin : Finalizer σ)
  | restore (r : Restore)
  | resumeWith (saved : AnyExit)
  | release (h : Handle)

/-- The rest of what a fiber has to do. An exiting machine has left its program and only closes
its scope. -/
structure Machine (σ : Type) where
  control : Control σ
  stack : List (Waiting σ) := []
  exiting : Bool := false

/-! ## Fibers -/

/-- Why a waiting fiber is resumed: to go on where it was, to go on with what it waited for, or
because its scope is closing. -/
inductive Resume (σ : Type) where
  | proceed
  | program (p : Program σ)
  | terminate

/-- Where a fiber is in its life. -/
inductive Phase (σ : Type) where
  | notStarted (m : Machine σ)
  | running
  | suspended (token : Nat) (m : Machine σ)
  | done (exit : AnyExit)

/-- Who watches the end of a fiber: a fiber that waits for it, the contest it takes part in with
its place there, the list of root fibers, or an observer of the program's. -/
inductive DoneWatcher (σ : Type) where
  | wake (w : Wake)
  | racer (t : Key .tally) (place : Nat)
  | member (t : Key .tally) (place : Nat)
  | root
  | react (r : AnyExit → Reaction σ)

/-- Whether a watcher is one that a program added. -/
def DoneWatcher.isOwn {σ : Type} : DoneWatcher σ → Bool
  | .react _ => true
  | _ => false

/-- The whole of a fiber. -/
structure Fiber (σ : Type) where
  context : Context
  scope : Key .scope
  phase : Phase σ
  nextToken : Nat := 0
  done : Cell AnyExit (DoneWatcher σ) := .fresh
  terminating : Bool := false
  ops : Nat := 0
  semaphores : Stack (Key .semaphore)
  masks : Stack Bool
  services : Stack Services
  inherited : List Frame
  labels : List Frame := []
  deferred : List FiberId := []

namespace Fiber

variable {σ : Type}

/-- Whether an interruption takes effect at once. -/
def interruptible (f : Fiber σ) : Bool := f.masks.top

/-- Whether the fiber has to leave its program: its scope is closing and nothing masks that. -/
def mustLeave (f : Fiber σ) : Bool := f.terminating && f.interruptible

/-- All frames of the trace, oldest first. -/
def frames (f : Fiber σ) : List Frame := f.inherited ++ f.labels.reverse

/-- The trace under the bound of the platform. -/
def trace (f : Fiber σ) : Trace := .ofFrames f.frames f.context.limits.maxTrace

/-- Where the fiber is in its life, without its machine. -/
def status (f : Fiber σ) : FiberStatus :=
  match f.phase with
  | .notStarted _ => .notStarted
  | .running => .running f.interruptible
  | .suspended _ _ => .suspended f.interruptible
  | .done e => .done e

/-- The published exit. -/
def exit? (f : Fiber σ) : Option AnyExit :=
  f.done.outcome?.map fun s =>
    match s with
    | .resolved e => e
    | .interrupted id => .interrupt id

/-- What acts can see of the fiber. -/
def view (f : Fiber σ) : FiberView :=
  { context := f.context, status := f.status, exit := f.exit?, trace := f.trace }

/-- Takes a machine out of the run loop and gives the token that resumes it. -/
def park (f : Fiber σ) (m : Machine σ) : Fiber σ × Nat :=
  ({ f with phase := .suspended f.nextToken m, nextToken := f.nextToken + 1 }, f.nextToken)

/-- Drops what was pushed on the four stacks; interruptions that were put off stay. -/
def unwind (f : Fiber σ) : Fiber σ :=
  { f with
    semaphores := f.semaphores.unwind
    masks := f.masks.unwind
    services := f.services.unwind
    labels := [] }

/-- Pops one of the four stacks. -/
def restore (f : Fiber σ) : Restore → Fiber σ
  | .interruptible => { f with masks := f.masks.pop }
  | .semaphore => { f with semaphores := f.semaphores.pop }
  | .services => { f with services := f.services.pop }
  | .label => { f with labels := f.labels.tail }

end Fiber

end Fibers
