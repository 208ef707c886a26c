import Mathlib.Tactic.Common
import Fibers.World.Drive

set_option autoImplicit false

/-! # Direct evaluation

A program that neither starts fibers nor waits can be given its exit without a machine: by
recursion on the program, with the services and the labels around it as parameters. `Evaluates`
is that evaluator, as a relation between a program and its exit. It knows no stack, no budget of
steps and no scope.

The functions that a user supplied are called on the way. What a call gives may depend on the
part `view` of the board that belongs to the program, and it may change that part; it must not
depend on anything else in the world and must leave the evaluating fiber alone (`Calls`).
-/

namespace Fibers

/-- The cell with the same outcome that nobody observes. -/
def Cell.unwatched {α ω : Type} : Cell α ω → Cell α ω
  | .pending _ _ => .fresh
  | .settled s => .settled s

namespace Direct

variable {σ S α : Type}

/-! ## Leaving a fiber alone -/

/-- What the course of a fiber depends on: the fiber, but for those who watch its end, and the
state of its scope. -/
structure Standing (σ : Type) where
  fiber : Fiber σ
  state : ScopeState (Finalizer σ)
  closed : Option (Settled AnyExit)

/-- The standing of a fiber in a world. -/
def standing (w : World σ) (f : Key .fiber) : Option (Standing σ) :=
  (w.fibers.get? f).bind fun fiber =>
    (w.scopes.get? fiber.scope).map fun sc =>
      ⟨{ fiber with done := fiber.done.unwatched }, sc.state, sc.closed.outcome?⟩

/-- From `w` to `w'` nobody has touched the fiber: it was neither run nor interrupted, and its
scope was not closed. Whatever else there is in the world may have changed. -/
def LeftAlone (f : Key .fiber) (w w' : World σ) : Prop := standing w' f = standing w f

/-! ## Calls -/

/-- In every world whose board shows `s`, the call gives `r` and leaves the board showing `s'`
and the fiber alone. -/
def Calls (f : Key .fiber) (view : σ → S) (call : World σ → World σ × Except Defect α) (s : S)
    (r : Except Defect α) (s' : S) : Prop :=
  ∀ w, view w.board = s → ∃ w', call w = (w', r) ∧ view w'.board = s' ∧ LeftAlone f w w'

/-- The cause of a panic under the labels `frames`, with the newest `max` of them. -/
def thrown (max : Nat) (frames : List Frame) (d : Defect) : AnyCause :=
  (Cause.die d).withTrace ⟨newest max frames⟩

/-- The call gives the program `p`; a panic stands for the program that fails with it. -/
def Gives (f : Key .fiber) (view : σ → S) (max : Nat) (frames : List Frame)
    (call : World σ → World σ × Except Defect (Program σ)) (s : S) (p : Program σ) (s' : S) :
    Prop :=
  Calls f view call s (.ok p) s' ∨
    ∃ d, Calls f view call s (.error d) s' ∧ p = .failCause (thrown max frames d)

/-! ## The evaluator -/

/-- `Evaluates f view max p env frames s exit s'`: on the fiber `f`, with the services `env` and
under the labels `frames` (oldest first), the program `p` takes the program's part of the board
from `s` to `s'` and ends with `exit`. A trace keeps the newest `max` labels. -/
inductive Evaluates (f : Key .fiber) (view : σ → S) (max : Nat) :
    Program σ → Services → List Frame → S → AnyExit → S → Prop
  | succeed {v : Value} {env : Services} {frames : List Frame} {s : S} :
      Evaluates f view max (.succeed v) env frames s (.success v) s
  | failCause {c : AnyCause} {env : Services} {frames : List Frame} {s : S} :
      Evaluates f view max (.failCause c) env frames s (.failure c) s
  | lazy {thunk : Act σ .exit} {env : Services} {frames : List Frame} {s s' : S} {e : AnyExit} :
      Calls f view (fun w => w.run thunk) s (.ok e) s' →
      Evaluates f view max (.lazy thunk) env frames s e s'
  | lazyThrows {thunk : Act σ .exit} {env : Services} {frames : List Frame} {s s' : S}
      {d : Defect} :
      Calls f view (fun w => w.run thunk) s (.error d) s' →
      Evaluates f view max (.lazy thunk) env frames s (.failure (thrown max frames d)) s'
  | defer {make : Act σ .program} {env : Services} {frames : List Frame} {s s₁ s' : S}
      {p : Program σ} {e : AnyExit} :
      Gives f view max frames (fun w => w.run make) s p s₁ →
      Evaluates f view max p env frames s₁ e s' →
      Evaluates f view max (.defer make) env frames s e s'
  | duty {d : Duty σ} {env : Services} {frames : List Frame} {s s₁ s' : S}
      {p : Program σ} {e : AnyExit} :
      Gives f view max frames (fun w => w.attend d) s p s₁ →
      Evaluates f view max p env frames s₁ e s' →
      Evaluates f view max (.duty d) env frames s e s'
  | access {g : Services → Act σ .program} {env : Services} {frames : List Frame} {s s₁ s' : S}
      {p : Program σ} {e : AnyExit} :
      Gives f view max frames (fun w => w.run (g env)) s p s₁ →
      Evaluates f view max p env frames s₁ e s' →
      Evaluates f view max (.access g) env frames s e s'
  | flatMap {p q : Program σ} {k : Cont σ} {env : Services} {frames : List Frame}
      {s s₁ s₂ s' : S} {v : Value} {e : AnyExit} :
      Evaluates f view max p env frames s (.success v) s₁ →
      Gives f view max frames (fun w => w.proceedWith k v) s₁ q s₂ →
      Evaluates f view max q env frames s₂ e s' →
      Evaluates f view max (.flatMap p k) env frames s e s'
  | flatMapFails {p : Program σ} {k : Cont σ} {env : Services} {frames : List Frame} {s s' : S}
      {c : AnyCause} :
      Evaluates f view max p env frames s (.failure c) s' →
      Evaluates f view max (.flatMap p k) env frames s (.failure c) s'
  | fold {p q : Program σ} {h : Handler σ} {k : Cont σ} {env : Services} {frames : List Frame}
      {s s₁ s₂ s' : S} {v : Value} {e : AnyExit} :
      Evaluates f view max p env frames s (.success v) s₁ →
      Gives f view max frames (fun w => w.proceedWith k v) s₁ q s₂ →
      Evaluates f view max q env frames s₂ e s' →
      Evaluates f view max (.fold p h k) env frames s e s'
  | foldRecovers {p q : Program σ} {h : Handler σ} {k : Cont σ} {env : Services}
      {frames : List Frame} {s s₁ s₂ s' : S} {c : AnyCause} {e : AnyExit} :
      Evaluates f view max p env frames s (.failure c) s₁ →
      Gives f view max frames (fun w => w.recoverWith h c) s₁ q s₂ →
      Evaluates f view max q env frames s₂ e s' →
      Evaluates f view max (.fold p h k) env frames s e s'
  | provide {p : Program σ} {env inner : Services} {frames : List Frame} {s s' : S}
      {e : AnyExit} :
      Evaluates f view max p (env.union inner) frames s e s' →
      Evaluates f view max (.provide p inner) env frames s e s'
  | addFrame {p : Program σ} {env : Services} {frames : List Frame} {frame : Frame} {s s' : S}
      {e : AnyExit} :
      Evaluates f view max p env (frames ++ [frame]) s e s' →
      Evaluates f view max (.addFrame p frame) env frames s e s'
  | mask {p : Program σ} {interruptible : Bool} {env : Services} {frames : List Frame} {s s' : S}
      {e : AnyExit} :
      Evaluates f view max p env frames s e s' →
      Evaluates f view max (.mask p interruptible) env frames s e s'
  | withConcurrency {p : Program σ} {level : Nat} {env : Services} {frames : List Frame}
      {s s' : S} {e : AnyExit} :
      Evaluates f view max p env frames s e s' →
      Evaluates f view max (.withConcurrency p level) env frames s e s'
  | yieldNow {env : Services} {frames : List Frame} {s : S} :
      Evaluates f view max .yieldNow env frames s (.success .unit) s
  | ensuring {p q : Program σ} {fin : Finalizer σ} {env : Services} {frames : List Frame}
      {s s₁ s₂ s' : S} {e outcome : AnyExit} :
      Evaluates f view max p env frames s e s₁ →
      Gives f view max frames (fun w => w.finalizeWith fin e) s₁ q s₂ →
      Evaluates f view max q env frames s₂ outcome s' →
      Evaluates f view max (.ensuring p fin) env frames s (World.combine e outcome) s'

/-! ## Calls that qualify

Functions that only give something back, panic, or read and write the board. -/

theorem LeftAlone.refl (f : Key .fiber) (w : World σ) : LeftAlone f w w := rfl

theorem LeftAlone.trans {f : Key .fiber} {w₁ w₂ w₃ : World σ} (h₁ : LeftAlone f w₁ w₂)
    (h₂ : LeftAlone f w₂ w₃) : LeftAlone f w₁ w₃ := Eq.trans h₂ h₁

theorem calls_program (f : Key .fiber) (view : σ → S) (p : Program σ) (s : S) :
    Calls f view (fun w => w.run (.program p)) s (.ok p) s := by
  intro w hw
  exact ⟨w, rfl, hw, .refl f w⟩

theorem calls_exit (f : Key .fiber) (view : σ → S) (e : AnyExit) (s : S) :
    Calls f view (fun w => w.run (.exit e)) s (.ok e) s := by
  intro w hw
  exact ⟨w, rfl, hw, .refl f w⟩

theorem calls_panic (f : Key .fiber) (view : σ → S) {e : Ending} (message : String) (s : S) :
    Calls f view (fun w => w.run (.panic message : Act σ e)) s (.error ⟨message⟩) s := by
  intro w hw
  exact ⟨w, rfl, hw, .refl f w⟩

theorem calls_look (f : Key .fiber) (view : σ → S) {e : Ending} {k : σ → Act σ e} {s s' : S}
    {r : Except Defect (e.Result σ)}
    (h : ∀ b, view b = s → Calls f view (fun w => w.run (k b)) s r s') :
    Calls f view (fun w => w.run (.look k)) s r s' := by
  intro w hw
  exact h w.board hw w hw

theorem calls_tell (f : Key .fiber) (view : σ → S) {e : Ending} {b : σ} {k : Act σ e} {s s' : S}
    {r : Except Defect (e.Result σ)} (h : Calls f view (fun w => w.run k) (view b) r s') :
    Calls f view (fun w => w.run (.tell b k)) s r s' := by
  intro w _
  obtain ⟨w', hrun, hview, halone⟩ := h { w with board := b } rfl
  exact ⟨w', hrun, hview, halone⟩

end Direct

end Fibers
