import Fibers.FiberRefs
import Fibers.Scope
import Fibers.Semaphore
import Fibers.Services
import Fibers.Timers

set_option autoImplicit false

/-! # Programs

A program is a tree. Its nodes are the instructions of the interpreter; where the rest of a
program depends on a value, the tree branches over all values by a function.

The functions that a user supplies (thunks, continuations, handlers, finalizers, registrations)
have effects when they are called: they write to the board, settle futures, set timers, interrupt
fibers, or panic. Such a call is an `Act`: a tree too, of questions to the system and commands to
it, that ends in what the function gives back. An act is run at once and without interruption.
`σ` is the type of the board, the part of the system that belongs to the user.

The continuations that the library itself supplies are not functions but data (`Duty`, `Sequel`
and the constructors of `Cont`, `Handler` and `Finalizer` beside `apply`), so that an invariant of
the system can say what a waiting fiber is going to do.
-/

namespace Fibers

/-! ## The questions and commands of an act -/

/-- Where a fiber is in its life. -/
inductive FiberStatus where
  | notStarted
  | running (interruptible : Bool)
  | suspended (interruptible : Bool)
  | done (exit : AnyExit)

/-- What an act can see of a fiber. -/
structure FiberView where
  context : Context
  status : FiberStatus
  exit : Option AnyExit
  trace : Trace

instance : Inhabited FiberView := ⟨⟨default, .notStarted, none, .empty⟩⟩

/-- How a future settled, without the program it holds. -/
inductive Outcome where
  | resolved
  | interrupted (id : FiberId)
  deriving DecidableEq, Repr

/-- What an act can see of a future. -/
structure FutureView where
  observers : Nat
  outcome : Option Outcome

instance : Inhabited FutureView := ⟨⟨0, none⟩⟩

/-- What an act can see of a scope. -/
structure ScopeView where
  owner : FiberId
  strategy : Strategy
  isOpen : Bool
  isClosed : Bool
  finalizers : Nat
  exit : Option AnyExit
  state : String

instance : Inhabited ScopeView := ⟨⟨.nobody, .sequential, true, false, 0, none, ""⟩⟩

/-- What an act can see of the system as a whole. -/
structure Survey where
  limits : Limits
  allocated : Nat
  concurrency : Nat
  clock : Clock
  pending : Nat
  roots : Nat

instance : Inhabited Survey := ⟨⟨default, 0, 1, default, 0, 0⟩⟩

/-- A question to the system. -/
inductive Query where
  | survey
  | fiber (f : Key .fiber)
  | future (f : Key .future)
  | scope (s : Key .scope)
  | semaphore (s : Key .semaphore)
  | refs (m : Key .refs)

/-- What a question is answered with. -/
def Query.Reply : Query → Type
  | .survey => Survey
  | .fiber _ => FiberView
  | .future _ => FutureView
  | .scope _ => ScopeView
  | .semaphore _ => Semaphore (Key .future)
  | .refs _ => FiberRefs

/-- A command to the system. -/
inductive Call where
  | interruptFiber (f : Key .fiber) (id : FiberId)
  | unwatchFiber (f : Key .fiber) (key : Nat)
  | newFuture
  | interruptFuture (f : Key .future) (id : FiberId)
  | unwatchFuture (f : Key .future) (key : Nat)
  | newSemaphore (permits : Nat)
  | tryAcquire (s : Key .semaphore)
  | relinquish (s : Key .semaphore) (ticket : Nat)
  | newScope (owner : FiberId) (strategy : Strategy)
  | forkScope (s : Key .scope) (owner : FiberId)
  | cancelFinalizer (h : Handle)
  | newRef (initial : Datum) (policy : RefPolicy)
  | newRefs
  | forkRefs (m : Key .refs)
  | joinRefs (m child : Key .refs)
  | writeRef (m : Key .refs) (r : FiberRef) (value : Datum)
  | alarm (delay : Duration) (f : Key .future)
  | cancelTimer (id : Nat)

/-- What a command gives back. -/
def Call.Reply : Call → Type
  | .interruptFiber _ _ => Unit
  | .unwatchFiber _ _ => Bool
  | .newFuture => Key .future
  | .interruptFuture _ _ => Bool
  | .unwatchFuture _ _ => Bool
  | .newSemaphore _ => Key .semaphore
  | .tryAcquire _ => Option Nat
  | .relinquish _ _ => Unit
  | .newScope _ _ => Key .scope
  | .forkScope _ _ => Key .scope
  | .cancelFinalizer _ => Bool
  | .newRef _ _ => FiberRef
  | .newRefs => Key .refs
  | .forkRefs _ => Key .refs
  | .joinRefs _ _ => Unit
  | .writeRef _ _ _ => Unit
  | .alarm _ _ => Nat
  | .cancelTimer _ => Bool

/-! ## Instructions -/

/-- What a fiber can wait for. -/
inductive Awaited where
  | future (f : Key .future)
  | done (f : Key .fiber)
  | closed (s : Key .scope)
  | decided (t : Key .tally)

/-- What a forked fiber gets instead of a fork of what its parent has. -/
structure ForkParams where
  scope : Option (Key .scope) := none
  refs : Option (Key .refs) := none
  concurrency : Option Nat := none

/-- What an act ends in. -/
inductive Ending where
  | program
  | exit
  | unit
  | registration

/-- What a race needs to know once it is decided: the racing fiber, the contestants, its map of
references and the scope that the contestants live in. -/
structure Contest where
  owner : FiberId
  members : List (Key .fiber)
  refs : Key .refs
  arena : Key .scope

mutual

/-- A program over a board of type `σ`. -/
inductive Program (σ : Type) : Type where
  | succeed (v : Value)
  | failCause (c : AnyCause)
  | lazy (thunk : Act σ .exit)
  | defer (make : Act σ .program)
  | flatMap (p : Program σ) (k : Cont σ)
  | fold (p : Program σ) (h : Handler σ) (k : Cont σ)
  | access (f : Services → Act σ .program)
  | provide (p : Program σ) (s : Services)
  | async (register : Key .future → Act σ .registration)
  | ensuring (p : Program σ) (fin : Finalizer σ)
  | fork (p : Program σ) (params : ForkParams)
  | fiberContext
  | fiberScope
  | fiberTrace
  | join (f : Key .fiber)
  | raceAll (ps : List (Program σ))
  | zipAll (ps : List (Program σ))
  | mask (p : Program σ) (interruptible : Bool)
  | withConcurrency (p : Program σ) (level : Nat)
  | addFrame (p : Program σ) (frame : Frame)
  | wait (a : Awaited)
  | yieldNow
  | duty (d : Duty σ)

/-- What follows a value. -/
inductive Cont (σ : Type) : Type where
  | apply (f : Value → Act σ .program)
  | next (p : Program σ)
  | sequel (s : Sequel σ)

/-- What follows a failure. -/
inductive Handler (σ : Type) : Type where
  | apply (f : AnyCause → Act σ .program)
  | capture

/-- What is run at the end, with the exit that led there. A `lent` one was registered by a program
for itself, which was given the handle; the handles of the others stay with the library. -/
inductive Finalizer (σ : Type) : Type where
  | apply (f : AnyExit → Act σ .program)
  | lent (f : AnyExit → Act σ .program)
  | canceler (p : Program σ)
  | closeChild (child : Key .scope) (parent : FiberId)
  | relinquish (s : Key .semaphore) (ticket : Nat)
  | relinquishOnFailure (s : Key .semaphore) (ticket : Nat)

/-- A step of the library's own that is decided when it is reached. A finalizer that the party
closing its scope has claimed is run under the handle it was registered with. -/
inductive Duty (σ : Type) : Type where
  | guarded (s : Key .semaphore) (p : Program σ)
  | acquire (s : Key .semaphore)
  | take (s : Key .semaphore) (ticket : Nat)
  | close (s : Key .scope) (exit : AnyExit)
  | finish (s : Key .scope)
  | release (h : Handle) (exit : AnyExit)
  | finalize (h : Handle) (fin : Finalizer σ) (exit : AnyExit)

/-- A continuation of the library's own. -/
inductive Sequel (σ : Type) : Type where
  | captured
  | publish (s : Key .scope)
  | runNext (p : Program σ)
  | combine (soFar : AnyExit)
  | combineAll (exit : AnyExit)
  | joined (ours theirs : Key .refs)
  | raceDecided (c : Contest)
  | raceDrained (c : Contest) (winner : Nat) (exit : AnyExit)
  | zipDecided (c : Contest)
  | zipDrained (c : Contest) (first : AnyCause)
  | awaitNext (f : Key .fiber)
  | awaited (exits : List AnyExit)

/-- A call of a function that a user supplied, up to what it gives back. -/
inductive Act (σ : Type) : Ending → Type where
  | program (p : Program σ) : Act σ .program
  | exit (e : AnyExit) : Act σ .exit
  | done : Act σ .unit
  | ready (p : Program σ) : Act σ .registration
  | pending (canceler : Option (Program σ)) : Act σ .registration
  | panic {e : Ending} (message : String) : Act σ e
  | look {e : Ending} (k : σ → Act σ e) : Act σ e
  | tell {e : Ending} (board : σ) (k : Act σ e) : Act σ e
  | ask {e : Ending} (q : Query) (k : q.Reply → Act σ e) : Act σ e
  | call {e : Ending} (c : Call) (k : c.Reply → Act σ e) : Act σ e
  | resolve {e : Ending} (f : Key .future) (p : Program σ) (k : Bool → Act σ e) : Act σ e
  | register {e : Ending} (s : Key .scope) (f : AnyExit → Act σ .program)
      (k : Option Handle → Act σ e) : Act σ e
  | after {e : Ending} (delay : Duration) (task : Act σ .unit) (k : Nat → Act σ e) : Act σ e
  | watchFiber {e : Ending} (f : Key .fiber) (r : AnyExit → Reaction σ) (k : Option Nat → Act σ e) :
      Act σ e
  | watchFuture {e : Ending} (f : Key .future) (r : Outcome → Reaction σ)
      (k : Option Nat → Act σ e) : Act σ e
  | elsewhere {e : Ending} (delay : Duration) (f : Key .future) (p : Program σ) (k : Act σ e) :
      Act σ e

end

variable {σ : Type}

instance : Inhabited (Program σ) := ⟨.succeed .unit⟩

/-- Whether a finalizer was registered by a program for itself. -/
def Finalizer.isLent : Finalizer σ → Bool
  | .lent _ => true
  | _ => false

/-- The name of the instruction at the root of a program. -/
def Program.tag : Program σ → String
  | .succeed _ => "Succeed"
  | .failCause _ => "Fail"
  | .lazy _ => "FromLazy"
  | .defer _ => "Defer"
  | .flatMap _ _ => "FlatMap"
  | .fold _ _ _ => "Fold"
  | .access _ => "Access"
  | .provide _ _ => "Provide"
  | .async _ => "Async"
  | .ensuring _ _ => "Ensuring"
  | .fork _ _ => "Fork"
  | .fiberContext => "GetFiberContext"
  | .fiberScope => "GetFiberScope"
  | .fiberTrace => "GetTrace"
  | .join _ => "Join"
  | .raceAll _ => "RaceAll"
  | .zipAll _ => "ZipAll"
  | .mask _ _ => "SetInterruptStatus"
  | .withConcurrency _ _ => "WithConcurrency"
  | .addFrame _ _ => "AddTrace"
  | .wait _ => "Wait"
  | .yieldNow => "YieldNow"
  | .duty _ => "Defer"

end Fibers
