import Fibers.Proofs.Run.Descent

set_option autoImplicit false

/-! # Runs

A `Moment` is a world between two steps, with the machine of the fiber whose turn it is, if it is
anybody's. A `Move` leads from one moment to the next: one step of that fiber, or, between turns,
the next task, the passing of time, or something that is done to the system from outside. A `Run`
is an endless row of moves from the start of a system. Tasks may come in any order, late or not
at all, so what holds in every run holds under every schedule. What the run loop does is less: its
moves are `Exact`.
-/

namespace Fibers

variable {σ : Type}

/-- The machine that a fiber goes on with: one that has to leave its program drops it. -/
def Machine.heed (m : Machine σ) (fiber : Fiber σ) : Machine σ :=
  if !m.exiting && fiber.mustLeave then { m with control := .leave none, stack := [] } else m

/-- The machine that waits with a handle to drop afterwards, if it has one. -/
def Machine.holding (m : Machine σ) : Option Handle → Machine σ
  | some h => { m with stack := .release h :: m.stack }
  | none => m

/-- A world, with the fiber whose turn it is and its machine. -/
structure Moment (σ : Type) where
  world : World σ
  active : Option (Key .fiber × Machine σ) := none

namespace World

/-! ## One step of a turn -/

/-- What a turn does after a step. -/
def conclude (f : Key .fiber) (stepped : World σ × Stepped σ) : Moment σ :=
  match stepped with
  | (w, ⟨m, .proceed⟩) => ⟨w, some (f, m)⟩
  | (w, ⟨m, .yield⟩) =>
      match w.fibers.get? f with
      | none => ⟨w, none⟩
      | some fiber => ⟨(w.park f fiber m).1.queue (.resume f (w.park f fiber m).2 .proceed), none⟩
  | (w, ⟨m, .await a release⟩) =>
      match w.fibers.get? f with
      | none => ⟨w, none⟩
      | some fiber =>
          let parked := w.park f { fiber with ops := 0 } (m.holding release)
          match parked.1.settledProgram? a with
          | none => ⟨parked.1.subscribe ⟨f, parked.2⟩ a, none⟩
          | some p =>
              ⟨parked.1.modifyFiber f fun fiber => { fiber with phase := .running },
                some (f, { m.holding release with control := .instruct p })⟩
  | (w, ⟨_, .done exit⟩) => ⟨w.finishFiber f exit, none⟩

/-- One step of the turn of a fiber. -/
def advance (w : World σ) (f : Key .fiber) (m : Machine σ) : Moment σ :=
  match w.fibers.get? f with
  | none => ⟨w, none⟩
  | some fiber => conclude f (w.step f fiber (m.heed fiber))

/-- Resumes a fiber that waits under a token. -/
def awaken (w : World σ) (f : Key .fiber) (token : Nat) (r : Resume σ) : Moment σ :=
  match w.fibers.get? f with
  | none => ⟨w, none⟩
  | some fiber =>
      match fiber.phase with
      | .suspended current m =>
          if current ≠ token then ⟨w, none⟩
          else
            let running := w.modifyFiber f fun fiber => { fiber with phase := .running }
            match r with
            | .proceed => ⟨running, some (f, m)⟩
            | .program p => ⟨running, some (f, { m with control := .instruct p })⟩
            | .terminate =>
                if m.exiting || !fiber.interruptible then ⟨w, none⟩ else ⟨running, some (f, m)⟩
      | _ => ⟨w, none⟩

/-- Begins a task of the queue. -/
def begin (w : World σ) : Task σ → Moment σ
  | .resume f token r => w.awaken f token r
  | .ring f => ⟨(w.resolve f .unit).1, none⟩
  | .run act => ⟨(w.run act).1, none⟩

end World

/-! ## Moves -/

/-- From one moment to the next. What comes from outside is a program to start, an act on the
system, or an errand that is due. -/
inductive Move : Moment σ → Moment σ → Prop
  | advance {w : World σ} {f : Key .fiber} {m : Machine σ} :
      Move ⟨w, some (f, m)⟩ (w.advance f m)
  | task {w : World σ} {t : Timer (Task σ)} {timers : Timers (Task σ)} :
      t ∈ w.timers.live → (∀ u ∈ timers.live, u ∈ w.timers.live) →
      Move ⟨w, none⟩ (World.begin { w with timers } t.task)
  | pass {w : World σ} {timers : Timers (Task σ)} :
      (∀ u ∈ timers.live, u ∈ w.timers.live) → Move ⟨w, none⟩ ⟨{ w with timers }, none⟩
  | errand {w : World σ} {e : Errand σ} {others : List (Errand σ)} :
      e ∈ w.errands → (∀ g ∈ others, g ∈ w.errands) →
      Move ⟨w, none⟩ ⟨w.runErrand e others, none⟩
  | root {w : World σ} {p : Program σ} :
      p.Licensed .none → Move ⟨w, none⟩ ⟨(w.runFiber p).1, none⟩
  | act {w : World σ} {e : Ending} {a : Act σ e} :
      a.Licensed .none → Move ⟨w, none⟩ ⟨(w.run a).1, none⟩

/-- A move that takes no task out of the queue but the one that it begins, and does not turn back the
clock. -/
inductive Exact : Moment σ → Moment σ → Prop
  | advance {w : World σ} {f : Key .fiber} {m : Machine σ} :
      Exact ⟨w, some (f, m)⟩ (w.advance f m)
  | task {w : World σ} {t : Timer (Task σ)} {timers : Timers (Task σ)} :
      w.timers.Draws t timers → Exact ⟨w, none⟩ (World.begin { w with timers } t.task)
  | pass {w : World σ} {timers : Timers (Task σ)} :
      w.timers.Passes timers → Exact ⟨w, none⟩ ⟨{ w with timers }, none⟩
  | errand {w : World σ} {e : Errand σ} {others : List (Errand σ)} :
      e ∈ w.errands → (∀ g ∈ others, g ∈ w.errands) →
      Exact ⟨w, none⟩ ⟨w.runErrand e others, none⟩
  | root {w : World σ} {p : Program σ} :
      p.Licensed .none → Exact ⟨w, none⟩ ⟨(w.runFiber p).1, none⟩
  | act {w : World σ} {e : Ending} {a : Act σ e} :
      a.Licensed .none → Exact ⟨w, none⟩ ⟨(w.run a).1, none⟩

theorem Exact.move {x x' : Moment σ} (h : Exact x x') : Move x x' := by
  cases h with
  | advance => exact .advance
  | task hdraws => exact .task hdraws.mem fun u hu => hdraws.sublist.subset hu
  | pass hpasses => exact .pass fun u hu => hpasses.live ▸ hu
  | errand he hothers => exact .errand he hothers
  | root hp => exact .root hp
  | act ha => exact .act ha

/-- A run of a system from its start. -/
structure Run (σ : Type) where
  config : Config
  services : Services
  board : σ
  moment : Nat → Moment σ
  start : moment 0 = ⟨World.new config services board, none⟩
  move : ∀ k, Move (moment k) (moment (k + 1))

/-- The run of a system whose tasks are all begun once, unless they are dropped before. -/
def Run.Exact (r : Run σ) : Prop := ∀ k, Fibers.Exact (r.moment k) (r.moment (k + 1))

/-- What moves can make of a moment. -/
def Reaches : Moment σ → Moment σ → Prop := Relation.ReflTransGen Move

/-- What exact moves can make of a moment. -/
def ReachesExactly : Moment σ → Moment σ → Prop := Relation.ReflTransGen Exact

theorem ReachesExactly.reaches {x x' : Moment σ} (h : ReachesExactly x x') : Reaches x x' :=
  Relation.ReflTransGen.mono (fun _ _ => Exact.move) _ _ h

/-! ## The run loop makes exact moves -/

namespace World

/-- One step of the loop. -/
theorem turn_succ (fuel : Nat) (f : Key .fiber) (m : Machine σ) (w : World σ) :
    turn (fuel + 1) f m w =
      match w.advance f m with
      | ⟨w', none⟩ => (w', .finished ())
      | ⟨w', some (g, m')⟩ => turn fuel g m' w' := by
  simp only [turn, advance]
  cases hget : w.fibers.get? f with
  | none => rfl
  | some fiber =>
      dsimp only
      rw [show (if (!m.exiting && fiber.mustLeave) = true then
        { m with control := .leave none, stack := [] } else m) = m.heed fiber from rfl]
      rcases hstep : w.step f fiber (m.heed fiber) with ⟨w', m', d⟩
      cases d with
      | proceed => rfl
      | yield =>
          simp only [conclude]
          cases w'.fibers.get? f with
          | none => rfl
          | some fiber => rfl
      | await a release =>
          simp only [conclude]
          cases w'.fibers.get? f with
          | none => rfl
          | some fiber =>
              cases release with
              | none =>
                  dsimp only [Machine.holding]
                  cases (w'.park f { fiber with ops := 0 } m').1.settledProgram? a with
                  | none => rfl
                  | some p => rfl
              | some h =>
                  dsimp only [Machine.holding]
                  cases (w'.park f { fiber with ops := 0 }
                    { m' with stack := .release h :: m'.stack }).1.settledProgram? a with
                  | none => rfl
                  | some p => rfl
      | done e => rfl

/-- A turn that comes to its end is a row of moves. -/
theorem reaches_turn {fuel : Nat} {f : Key .fiber} {m : Machine σ} {w w' : World σ}
    (h : turn fuel f m w = (w', .finished ())) : ReachesExactly ⟨w, some (f, m)⟩ ⟨w', none⟩ := by
  induction fuel generalizing f m w with
  | zero => cases h
  | succ fuel ih =>
      have hmove : Exact ⟨w, some (f, m)⟩ (w.advance f m) := .advance
      rw [turn_succ] at h
      rcases hadvance : w.advance f m with ⟨w₁, active⟩
      rw [hadvance] at h hmove
      cases active with
      | none =>
          obtain rfl : w₁ = w' := congrArg Prod.fst h
          exact Relation.ReflTransGen.single hmove
      | some gm =>
          obtain ⟨g, m₁⟩ := gm
          exact Relation.ReflTransGen.head hmove (ih h)

/-- A task that comes to its end is a row of moves. -/
theorem reaches_perform {fuel : Nat} {t : Timer (Task σ)} {w w' : World σ}
    {timers : Timers (Task σ)} (hdraws : w.timers.Draws t timers)
    (h : perform fuel t.task { w with timers } = (w', .finished ())) :
    ReachesExactly ⟨w, none⟩ ⟨w', none⟩ := by
  have hmove : Exact ⟨w, none⟩ (World.begin { w with timers } t.task) := .task hdraws
  cases htask : t.task with
  | ring f =>
      rw [htask] at h hmove
      obtain rfl : _ = w' := congrArg Prod.fst h
      exact Relation.ReflTransGen.single hmove
  | run act =>
      rw [htask] at h hmove
      simp only [perform] at h
      split at h
      · rename_i w₁ heq
        obtain rfl : w₁ = w' := congrArg Prod.fst h
        simp only [begin, heq] at hmove
        exact Relation.ReflTransGen.single hmove
      · cases h
  | resume f token r =>
      rw [htask] at h hmove
      simp only [perform, resume] at h
      simp only [begin, awaken] at hmove
      -- a resumption that finds its token stale, or its fiber deaf, changes nothing
      have hstay : (⟨{ w with timers }, .finished ()⟩ : World σ × Verdict Unit) = (w', .finished ()) →
          Exact ⟨w, none⟩ ⟨{ w with timers }, none⟩ → ReachesExactly ⟨w, none⟩ ⟨w', none⟩ := by
        intro heq hm
        obtain rfl : { w with timers } = w' := congrArg Prod.fst heq
        exact Relation.ReflTransGen.single hm
      cases hget : w.fibers.get? f with
      | none =>
          rw [hget] at h hmove
          exact hstay h hmove
      | some fiber =>
          rw [hget] at h hmove
          dsimp only at h hmove
          cases hphase : fiber.phase with
          | notStarted m =>
              rw [hphase] at h hmove
              exact hstay h hmove
          | running =>
              rw [hphase] at h hmove
              exact hstay h hmove
          | done e =>
              rw [hphase] at h hmove
              exact hstay h hmove
          | suspended current m =>
              rw [hphase] at h hmove
              dsimp only at h hmove
              split at h
              · rename_i hne
                rw [if_pos hne] at hmove
                exact hstay h hmove
              · rename_i hne
                rw [if_neg hne] at hmove
                cases r with
                | proceed => exact Relation.ReflTransGen.head hmove (reaches_turn h)
                | program p => exact Relation.ReflTransGen.head hmove (reaches_turn h)
                | terminate =>
                    dsimp only at h hmove
                    split at h
                    · rename_i hdeaf
                      rw [if_pos hdeaf] at hmove
                      exact hstay h hmove
                    · rename_i hdeaf
                      rw [if_neg hdeaf] at hmove
                      exact Relation.ReflTransGen.head hmove (reaches_turn h)

theorem mem_of_firstErrand {es others : List (Errand σ)} {e : Errand σ}
    (h : firstErrand es = some (e, others)) : e ∈ es ∧ ∀ g ∈ others, g ∈ es := by
  induction es generalizing e others with
  | nil => cases h
  | cons d rest ih =>
      simp only [firstErrand] at h
      split at h
      · cases h
        exact ⟨List.mem_cons_self, fun g hg => by cases hg⟩
      · rename_i g left hrest
        obtain ⟨hg, hleft⟩ := ih hrest
        split at h
        · cases h
          refine ⟨List.mem_cons_of_mem _ hg, fun x hx => ?_⟩
          rcases List.mem_cons.mp hx with rfl | hx
          · exact List.mem_cons_self
          · exact List.mem_cons_of_mem _ (hleft x hx)
        · cases h
          exact ⟨List.mem_cons_self, fun x hx => List.mem_cons_of_mem _ hx⟩

/-- Waiting is a row of moves. -/
theorem reaches_await {deadline : Option Time} {w w' : World σ}
    (h : w.await deadline = some w') : ReachesExactly ⟨w, none⟩ ⟨w', none⟩ := by
  have hclock : ∀ t, ReachesExactly ⟨w, none⟩ ⟨{ w with timers := w.timers.advanceTo t }, none⟩ :=
    fun t => .single (.pass (Timers.passes_advanceTo _ t))
  have herrand : ∀ e others, firstErrand w.errands = some (e, others) →
      ReachesExactly ⟨w, none⟩ ⟨w.runErrand e others, none⟩ := by
    intro e others hfirst
    obtain ⟨he, hothers⟩ := mem_of_firstErrand hfirst
    exact .single (.errand he hothers)
  unfold await at h
  split at h
  · split at h
    · cases h
      exact hclock _
    · cases h
      exact Relation.ReflTransGen.refl
  · split at h
    · cases h
    · cases h
      exact hclock _
    · rename_i e others hfirst
      cases h
      exact herrand e others hfirst
    · rename_i e others t hfirst
      split at h
      · cases h
        exact herrand e others hfirst
      · cases h
        exact hclock _

end World

end Fibers
