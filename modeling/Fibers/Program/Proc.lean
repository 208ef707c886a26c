import Fibers.Program

set_option autoImplicit false

/-! # Writing acts

An act is a tree that ends in what a function gives back. A `Proc` is a stretch of such a tree
that gives a value to whatever comes after it; it can be followed by any act and so stands in
functions of every kind. Procs form a monad, and each question and command is one.
-/

namespace Fibers

/-- A stretch of an act over the board `σ` that gives an `α`. -/
def Proc (σ α : Type) : Type := ∀ e : Ending, (α → Act σ e) → Act σ e

namespace Proc

variable {σ α : Type}

instance : Monad (Proc σ) where
  pure a := fun _ k => k a
  bind m f := fun e k => m e fun a => f a e k

instance : LawfulMonad (Proc σ) where
  map_const := rfl
  id_map _ := rfl
  seqLeft_eq _ _ := rfl
  seqRight_eq _ _ := rfl
  pure_seq _ _ := rfl
  bind_pure_comp _ _ := rfl
  bind_map _ _ := rfl
  pure_bind _ _ := rfl
  bind_assoc _ _ _ := rfl

instance : Inhabited (Proc σ α) := ⟨fun _ _ => .panic "unreachable"⟩

/-! ## What a proc can do -/

/-- Reads the board. -/
def look : Proc σ σ := fun _ k => .look k

/-- Changes the board. -/
def write (f : σ → σ) : Proc σ Unit := fun _ k => .look fun s => .tell (f s) (k ())

/-- Panics. -/
def panic (message : String) : Proc σ α := fun _ _ => .panic message

/-- Gives a value, or panics with the defect that stands in its place. -/
def ofExcept : Except Defect α → Proc σ α
  | .ok a => fun _ k => k a
  | .error d => panic d.message

/-- Asks a question. -/
def ask (q : Query) : Proc σ q.Reply := fun _ k => .ask q k

/-- Gives a command. -/
def call (c : Call) : Proc σ c.Reply := fun _ k => .call c k

/-- Resolves a future; tells whether this was the first outcome. -/
def resolve (f : Key .future) (p : Program σ) : Proc σ Bool := fun _ k => .resolve f p k

/-- Registers a finalizer. -/
def register (s : Key .scope) (f : AnyExit → Act σ .program) : Proc σ (Option Handle) :=
  fun _ k => .register s f k

/-- Sets a timer. -/
def after (delay : Duration) (task : Act σ .unit) : Proc σ Nat := fun _ k => .after delay task k

/-- Adds an observer to a fiber. -/
def watchFiber (f : Key .fiber) (r : AnyExit → Reaction σ) : Proc σ (Option Nat) :=
  fun _ k => .watchFiber f r k

/-- Adds an observer to a future. -/
def watchFuture (f : Key .future) (r : Outcome → Reaction σ) : Proc σ (Option Nat) :=
  fun _ k => .watchFuture f r k

/-- Has a future resolved from outside the queue. -/
def elsewhere (delay : Duration) (f : Key .future) (p : Program σ) : Proc σ Unit :=
  fun _ k => .elsewhere delay f p (k ())

/-! ## Where a proc ends -/

/-- The function that gives back a program. -/
def program (m : Proc σ (Program σ)) : Act σ .program := m _ .program

/-- The function that gives back the program that succeeds with a value. -/
def value (m : Proc σ Value) : Act σ .program := m _ fun v => .program (.succeed v)

/-- The thunk that gives a value. -/
def thunk (m : Proc σ Value) : Act σ .exit := m _ fun v => .exit (.success v)

/-- The task that does something. -/
def task (m : Proc σ Unit) : Act σ .unit := m _ fun _ => .done

end Proc

end Fibers
