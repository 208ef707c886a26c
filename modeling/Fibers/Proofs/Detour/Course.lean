import Fibers.Proofs.Detour.Likeness
import Fibers.Proofs.Direct.Simulation
import Fibers.Proofs.Run.Schedule
import Mathlib.Logic.Function.Iterate

set_option autoImplicit false

/-! # The course of one fiber among others

A fiber runs in turns, and between its turns the others take theirs. This module says what the
course of one fiber relies on and what it keeps. The fiber has a `Home`: its scope, its map of
references, and the semaphore under which its program holds a permit. The others mind the home of
the fiber (`Minds`): they leave the fiber, its home and the board as they are, but they may watch
the fiber's end. The fiber in turn keeps to its home (`Keeps`): it leaves the other fibers and
their references alone.

`Life` is the course: a task of the queue is what the fiber waits for, and whenever that task
comes next, on a clock that shows its deadline, its turn ends in such a course again or leaves by
the `Outlet`. `Runs` says the same of a fiber in the middle of a turn. As in the course of a fiber
that is left alone, the budget of steps is dealt with once and for all (`runs_of_unspent`).
-/

namespace Fibers.Detour

open World Direct

variable {σ S : Type}

/-! ## Where a fiber is at home -/

/-- What belongs to a fiber beside itself: its scope, its map of references, and the semaphore that
its program may hold a permit of. -/
structure Home where
  scope : Key .scope
  refs : Key .refs
  permits : Key .semaphore

/-- From `w` to `w'` the fiber `f` has kept to its home, and nobody has come or gone who watches it. -/
structure Keeps (f : Key .fiber) (home : Home) (w w' : World σ) : Prop where
  fibers : ∀ g, g ≠ f → w'.fibers.get? g = w.fibers.get? g
  own : (w'.fibers.get? f).map (fun y => (y.done, y.context)) =
    (w.fibers.get? f).map fun y => (y.done, y.context)
  refs : ∀ m, m ≠ home.refs → w'.refs.get? m = w.refs.get? m
  now : w'.now = w.now

/-- The cell has the fiber for an observer. -/
def Wakes (f : Key .fiber) (cell : Cell (Program σ) (FutureWatcher σ)) : Prop :=
  ∃ o ∈ cell.observers, ∃ token, o.2 = .wake ⟨f, token⟩

/-- From `w` to `w'` the others have minded the home of the fiber `f`. -/
structure Minds (view : σ → S) (f : Key .fiber) (home : Home) (w w' : World σ) : Prop where
  fiber : (w'.fibers.get? f).map (fun fiber => { fiber with done := fiber.done.unwatched }) =
    (w.fibers.get? f).map fun fiber => { fiber with done := fiber.done.unwatched }
  scope : w'.scopes.get? home.scope = w.scopes.get? home.scope
  refs : w'.refs.get? home.refs = w.refs.get? home.refs
  permits : w'.semaphores.get? home.permits = w.semaphores.get? home.permits
  futures : ∀ cb cell, w.futures.get? cb = some cell → Wakes f cell →
    w'.futures.get? cb = some cell
  board : view w'.board = view w.board

/-- The task `t` comes next: it is the first of the queue, no other is due before it, and the
clock shows its deadline. -/
structure Next (t : Timer (Task σ)) (rest : List (Timer (Task σ))) (w : World σ) : Prop where
  live : w.timers.live = t :: rest
  now : w.now = t.deadline

variable {f : Key .fiber} {home : Home} {view : σ → S} {w w₁ w' : World σ}

theorem Keeps.refl (f : Key .fiber) (home : Home) (w : World σ) : Keeps f home w w :=
  ⟨fun _ _ => rfl, rfl, fun _ _ => rfl, rfl⟩

theorem Keeps.trans (h : Keeps f home w w₁) (h' : Keeps f home w₁ w') : Keeps f home w w' :=
  ⟨fun g hg => (h'.fibers g hg).trans (h.fibers g hg), h'.own.trans h.own,
    fun m hm => (h'.refs m hm).trans (h.refs m hm), h'.now.trans h.now⟩

theorem Minds.refl (view : σ → S) (f : Key .fiber) (home : Home) (w : World σ) :
    Minds view f home w w :=
  ⟨rfl, rfl, rfl, rfl, fun _ _ h _ => h, rfl⟩

theorem Minds.trans (h : Minds view f home w w₁) (h' : Minds view f home w₁ w') :
    Minds view f home w w' :=
  ⟨h'.fiber.trans h.fiber, h'.scope.trans h.scope, h'.refs.trans h.refs, h'.permits.trans h.permits,
    fun cb cell hcb hwakes => h'.futures cb cell (h.futures cb cell hcb hwakes) hwakes,
    h'.board.trans h.board⟩

/-- The fiber has kept to its home and queued nothing. -/
structure Stirs (f : Key .fiber) (home : Home) (w w' : World σ) : Prop
    extends Keeps f home w w' where
  live : w'.timers.live = w.timers.live

theorem Stirs.refl (f : Key .fiber) (home : Home) (w : World σ) : Stirs f home w w :=
  ⟨.refl f home w, rfl⟩

theorem Stirs.trans (h : Stirs f home w w₁) (h' : Stirs f home w₁ w') : Stirs f home w w' :=
  ⟨h.toKeeps.trans h'.toKeeps, h'.live.trans h.live⟩

/-! ## The course -/

/-- How a fiber may leave its course: `leads w x` says that a turn that began in `w` and has come to
the moment `x` may be left there. Where in its home the turn has begun does not matter. -/
structure Outlet (σ : Type) (f : Key .fiber) (home : Home) where
  leads : World σ → Moment σ → Prop
  absorbs : ∀ {w w₁ : World σ} {x : Moment σ}, Stirs f home w w₁ → leads w₁ x → leads w x

/-- The fiber `f` waits for the task `t`, and however the others go on meanwhile, as long as they
mind its home, it will leave by the outlet after some more turns. -/
inductive Life (view : σ → S) (f : Key .fiber) (home : Home) (out : Outlet σ f home) :
    Timer (Task σ) → World σ → Prop
  | turn {t : Timer (Task σ)} {w : World σ}
      (after : List (Timer (Task σ)) → World σ → Moment σ)
      (again : List (Timer (Task σ)) → World σ → Option (Timer (Task σ))) :
      t ∈ w.timers.live → w.now.nanos ≤ t.deadline.nanos →
      (∀ rest w', Minds view f home w w' → Next t rest w' →
        ∃ n, Moment.stride^[n] (World.begin (w'.withQueue rest) t.task) = after rest w') →
      (∀ rest w' t', Minds view f home w w' → Next t rest w' → again rest w' = some t' →
        (after rest w').active = none ∧ Keeps f home (w'.withQueue rest) (after rest w').world ∧
          (after rest w').world.timers.live = Timers.insert t' rest) →
      (∀ rest w' t', Minds view f home w w' → Next t rest w' → again rest w' = some t' →
        Life view f home out t' (after rest w').world) →
      (∀ rest w', Minds view f home w w' → Next t rest w' → again rest w' = none →
        out.leads (w'.withQueue rest) (after rest w')) →
      Life view f home out t w

variable {out : Outlet σ f home} {t : Timer (Task σ)} {x : Moment σ}

/-- How a turn of the fiber that began in `w` goes on from the moment `x`: it ends with the fiber
waiting for another task, or the fiber leaves. -/
def Ends (view : σ → S) (f : Key .fiber) (home : Home) (out : Outlet σ f home) (w : World σ)
    (x : Moment σ) : Prop :=
  ∃ n y, Moment.stride^[n] x = y ∧
    ((∃ t, y.active = none ∧ Keeps f home w y.world ∧
        y.world.timers.live = Timers.insert t w.timers.live ∧ Life view f home out t y.world) ∨
      out.leads w y)

/-- The fiber `f`, in the middle of a turn with the machine `m`, will leave by the outlet. -/
def Runs (view : σ → S) (f : Key .fiber) (home : Home) (out : Outlet σ f home) (m : Machine σ)
    (w : World σ) : Prop := Ends view f home out w ⟨w, some (f, m)⟩

theorem Life.intro (ht : t ∈ w.timers.live) (hnow : w.now.nanos ≤ t.deadline.nanos)
    (h : ∀ rest w', Minds view f home w w' → Next t rest w' →
      Ends view f home out (w'.withQueue rest) (World.begin (w'.withQueue rest) t.task)) :
    Life view f home out t w := by
  have key : ∀ (rest : List (Timer (Task σ))) (w' : World σ),
      ∃ (y : Moment σ) (again : Option (Timer (Task σ))),
        Minds view f home w w' → Next t rest w' →
        (∃ n, Moment.stride^[n] (World.begin (w'.withQueue rest) t.task) = y) ∧
        (∀ t', again = some t' → y.active = none ∧ Keeps f home (w'.withQueue rest) y.world ∧
          y.world.timers.live = Timers.insert t' rest ∧ Life view f home out t' y.world) ∧
        (again = none → out.leads (w'.withQueue rest) y) := by
    intro rest w'
    by_cases hcond : Minds view f home w w' ∧ Next t rest w'
    · obtain ⟨n, y, hrun, ⟨t', hidle, hkeeps, hlive, hlife⟩ | hleads⟩ := h rest w' hcond.1 hcond.2
      · refine ⟨y, some t', fun _ _ => ⟨⟨n, hrun⟩, ?_, ?_⟩⟩
        · intro u hu
          cases hu
          exact ⟨hidle, hkeeps, hlive, hlife⟩
        · intro hnone
          cases hnone
      · refine ⟨y, none, fun _ _ => ⟨⟨n, hrun⟩, ?_, fun _ => hleads⟩⟩
        intro u hu
        cases hu
    · exact ⟨⟨w', none⟩, none, fun h₁ h₂ => absurd ⟨h₁, h₂⟩ hcond⟩
  choose after again hkey using key
  refine .turn after again ht hnow (fun rest w' h₁ h₂ => (hkey rest w' h₁ h₂).1) ?_ ?_ ?_
  · intro rest w' t' h₁ h₂ heq
    obtain ⟨hidle, hkeeps, hlive, -⟩ := (hkey rest w' h₁ h₂).2.1 t' heq
    exact ⟨hidle, hkeeps, hlive⟩
  · intro rest w' t' h₁ h₂ heq
    exact ((hkey rest w' h₁ h₂).2.1 t' heq).2.2.2
  · intro rest w' h₁ h₂ heq
    exact (hkey rest w' h₁ h₂).2.2 heq

/-- Induction along a course. -/
theorem Life.induct {motive : Timer (Task σ) → World σ → Prop}
    (step : ∀ (t : Timer (Task σ)) (w : World σ), t ∈ w.timers.live →
      w.now.nanos ≤ t.deadline.nanos →
      (∀ rest w', Minds view f home w w' → Next t rest w' →
        ∃ n y, Moment.stride^[n] (World.begin (w'.withQueue rest) t.task) = y ∧
          ((∃ t', y.active = none ∧ Keeps f home (w'.withQueue rest) y.world ∧
              y.world.timers.live = Timers.insert t' rest ∧ Life view f home out t' y.world ∧
              motive t' y.world) ∨
            out.leads (w'.withQueue rest) y)) →
      motive t w)
    (h : Life view f home out t w) : motive t w := by
  induction h with
  | turn after again ht hnow hrun hagain hlife hleads ih =>
      refine step _ _ ht hnow fun rest w' h₁ h₂ => ?_
      obtain ⟨n, hend⟩ := hrun rest w' h₁ h₂
      refine ⟨n, after rest w', hend, ?_⟩
      cases heq : again rest w' with
      | none => exact Or.inr (hleads rest w' h₁ h₂ heq)
      | some t' =>
          obtain ⟨hidle, hkeeps, hlive⟩ := hagain rest w' t' h₁ h₂ heq
          exact Or.inl ⟨t', hidle, hkeeps, hlive, hlife rest w' t' h₁ h₂ heq, ih rest w' t' h₁ h₂ heq⟩

/-- Where in its home a turn has begun does not matter. -/
theorem Ends.stirs (hstirs : Stirs f home w w₁) (h : Ends view f home out w₁ x) :
    Ends view f home out w x := by
  obtain ⟨n, y, hrun, ⟨t, hidle, hkeeps, hlive, hlife⟩ | hleads⟩ := h
  · exact ⟨n, y, hrun, Or.inl ⟨t, hidle, hstirs.toKeeps.trans hkeeps, by rw [hlive, hstirs.live], hlife⟩⟩
  · exact ⟨n, y, hrun, Or.inr (out.absorbs hstirs hleads)⟩

/-- How a turn goes on from its next step. -/
theorem Ends.of_stride (h : Ends view f home out w x.stride) : Ends view f home out w x := by
  obtain ⟨n, y, hrun, hends⟩ := h
  exact ⟨n + 1, y, by rw [Function.iterate_succ_apply, hrun], hends⟩

/-- A turn that is over, with the fiber waiting for its next task. -/
theorem Ends.of_life (hkeeps : Keeps f home w w') (hlive : w'.timers.live = Timers.insert t w.timers.live)
    (h : Life view f home out t w') : Ends view f home out w ⟨w', none⟩ :=
  ⟨0, _, rfl, Or.inl ⟨t, rfl, hkeeps, hlive, h⟩⟩

/-- A turn that may be left where it is. -/
theorem Ends.of_leads (h : out.leads w x) : Ends view f home out w x := ⟨0, _, rfl, Or.inr h⟩

end Fibers.Detour
