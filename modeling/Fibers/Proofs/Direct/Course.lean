import Fibers.Proofs.Direct.Evaluation

set_option autoImplicit false

/-! # The course of a fiber that is left alone

A fiber runs in turns. Between two turns it is parked, its next turn is in the queue, and the
rest of the world does what it likes as long as it leaves the fiber alone. `EndsWith` says that
however the world goes on in between, the fiber takes finitely many turns and is then done with
the exit. `Runs` says the same of a fiber in the middle of a turn.

The lemmas here deal with the budget of steps once and for all: a step may always be taken as if
the budget were not spent (`runs_of_unspent`), since a fiber that yields comes back as it was.
-/

namespace Fibers.Direct

open World

variable {σ S : Type}

/-- However the world goes on between its turns, the fiber `f` will be done with `exit`. The
others may change the board too, but for the part of it that `view` shows. -/
inductive EndsWith (f : Key .fiber) (view : σ → S) (exit : AnyExit) : World σ → Prop
  | done {w : World σ} {fiber : Fiber σ} :
      w.fibers.get? f = some fiber → fiber.phase = .done exit → fiber.exit? = some exit →
      EndsWith f view exit w
  | turn {w : World σ} {fiber : Fiber σ} {token : Nat} {m : Machine σ} {next : World σ → World σ} :
      w.fibers.get? f = some fiber → fiber.phase = .suspended token m →
      (∃ t ∈ w.timers.live, t.task = .resume f token .proceed) →
      (∀ w', LeftAlone f w w' → view w'.board = view w.board →
        ∃ fuel, w'.resume fuel f token .proceed = (next w', .finished ())) →
      (∀ w', LeftAlone f w w' → view w'.board = view w.board → EndsWith f view exit (next w')) →
      EndsWith f view exit w

/-- The fiber `f`, in the middle of a turn with the machine `m`, will be done with `exit`. -/
def Runs (f : Key .fiber) (view : σ → S) (exit : AnyExit) (m : Machine σ) (w : World σ) : Prop :=
  ∃ fuel w', w.turn fuel f m = (w', .finished ()) ∧ EndsWith f view exit w'

/-! ## Where a fiber stands -/

/-- The fiber but for its budget, its tokens and those who watch its end. -/
def Varies (fiber actual : Fiber σ) : Prop :=
  ∃ (ops token : Nat) (cell : Cell AnyExit (DoneWatcher σ)),
    cell.isPending = true ∧ actual = { fiber with ops, nextToken := token, done := cell }

/-- The fiber `f` is `fiber`, its scope is in a state that `P` allows, and the board shows `s`. -/
structure Stands (f : Key .fiber) (view : σ → S) (w : World σ) (fiber : Fiber σ)
    (P : ScopeState (Finalizer σ) → Option (Settled AnyExit) → Prop) (s : S) : Prop where
  actual : ∃ actual, w.fibers.get? f = some actual ∧ Varies fiber actual
  scope : ∃ sc, w.scopes.get? fiber.scope = some sc ∧ P sc.state sc.closed.outcome?
  board : view w.board = s

variable {f : Key .fiber} {view : σ → S} {exit : AnyExit}
  {P : ScopeState (Finalizer σ) → Option (Settled AnyExit) → Prop} {s : S}

theorem Varies.isPending {fiber actual : Fiber σ} (h : Varies fiber actual) :
    actual.done.isPending = true := by
  obtain ⟨ops, token, cell, hcell, rfl⟩ := h
  exact hcell

/-- A change of the fiber that keeps out of what may vary. -/
theorem Stands.modify {w : World σ} {fiber fiber' : Fiber σ} {g : Fiber σ → Fiber σ}
    (h : Stands f view w fiber P s) (hscope : fiber'.scope = fiber.scope)
    (hg : ∀ actual, Varies fiber actual → Varies fiber' (g actual)) :
    Stands f view (w.modifyFiber f g) fiber' P s := by
  obtain ⟨⟨actual, hget, hvaries⟩, hs, hb⟩ := h
  refine ⟨⟨g actual, ?_, hg actual hvaries⟩, ?_, hb⟩
  · simp only [modifyFiber, Store.get?_modify, hget, if_pos, Option.map_some]
  · rw [hscope]; exact hs

theorem cell_of_unwatched {α ω : Type} {c d : Cell α ω} (h : c.unwatched = d.unwatched) :
    c.isPending = d.isPending := by
  cases c <;> cases d <;> simp_all [Cell.unwatched, Cell.fresh, Cell.isPending, Cell.outcome?]

/-- Being left alone keeps where the fiber stands, to the step of its budget. -/
theorem Stands.leftAlone {w w' : World σ} {fiber actual : Fiber σ}
    (h : Stands f view w fiber P s) (hget : w.fibers.get? f = some actual)
    (halone : LeftAlone f w w') (hview : view w'.board = view w.board) :
    Stands f view w' fiber P s ∧
      ∃ actual', w'.fibers.get? f = some actual' ∧ actual'.ops = actual.ops ∧
        actual'.nextToken = actual.nextToken := by
  obtain ⟨⟨actual₀, hget₀, ops, token, cell, hcell, rfl⟩, ⟨sc, hsc, hP⟩, hb⟩ := h
  obtain rfl : _ = actual := Option.some.inj (hget₀.symm.trans hget)
  have hstanding : standing w f = some
      ⟨{ fiber with ops, nextToken := token, done := cell.unwatched }, sc.state,
        sc.closed.outcome?⟩ := by
    simp only [standing, hget, Option.bind_some, hsc, Option.map_some]
  rw [LeftAlone, hstanding] at halone
  simp only [standing, Option.bind_eq_some_iff, Option.map_eq_some_iff] at halone
  obtain ⟨actual', hget', sc', hsc', heq⟩ := halone
  simp only [Standing.mk.injEq] at heq
  obtain ⟨hfiber, hstate, hclosed⟩ := heq
  have hdone : actual'.done.unwatched = cell.unwatched := congrArg Fiber.done hfiber
  have hvary : actual' = { fiber with ops, nextToken := token, done := actual'.done } := by
    cases actual'
    simp only [Fiber.mk.injEq] at hfiber ⊢
    simp [hfiber]
  have hscope' : actual'.scope = fiber.scope := by rw [hvary]
  refine ⟨⟨⟨actual', hget', ops, token, actual'.done, ?_, hvary⟩, ⟨sc', ?_, ?_⟩, ?_⟩,
    actual', hget', ?_, ?_⟩
  · rw [cell_of_unwatched hdone, hcell]
  · rw [← hscope', hsc']
  · rw [hstate, hclosed]; exact hP
  · rw [hview, hb]
  · rw [hvary]
  · rw [hvary]

/-! ## Steps of a turn -/

/-- A machine that is on its way out, or whose fiber has no reason to leave its program. -/
def Stays (m : Machine σ) (fiber : Fiber σ) : Prop := m.exiting = true ∨ fiber.terminating = false

theorem not_mustLeave {m : Machine σ} {fiber actual : Fiber σ} (h : Stays m fiber)
    (hvaries : Varies fiber actual) : (!m.exiting && actual.mustLeave) = false := by
  obtain ⟨ops, token, cell, -, rfl⟩ := hvaries
  rcases h with h | h <;> simp [h, Fiber.mustLeave]

/-- A step that goes on is followed by the rest of the turn. -/
theorem runs_of_step {m m' : Machine σ} {w w' : World σ} {fiber actual : Fiber σ}
    (hget : w.fibers.get? f = some actual) (hvaries : Varies fiber actual) (hstays : Stays m fiber)
    (hstep : w.step f actual m = (w', { machine := m', decision := .proceed }))
    (h : Runs f view exit m' w') : Runs f view exit m w := by
  obtain ⟨fuel, w'', hturn, hends⟩ := h
  refine ⟨fuel + 1, w'', ?_, hends⟩
  simp only [turn, hget, not_mustLeave hstays hvaries, Bool.false_eq_true, if_false, hstep]
  exact hturn

/-- A parked fiber whose next turn is in the queue will be done if it runs to its end from
wherever it stands then. -/
theorem ends_of_parked {m : Machine σ} {w : World σ} {fiber actual : Fiber σ}
    (hrunning : fiber.phase = .running) (hstays : Stays m fiber)
    (h : Stands f view w fiber P s) (hget : w.fibers.get? f = some actual)
    (hvaries : Varies fiber actual)
    (k : ∀ w' actual', Stands f view w' fiber P s → w'.fibers.get? f = some actual' →
      actual'.ops = actual.ops → Runs f view exit m w') :
    EndsWith f view exit
      ((w.park f actual m).1.queue (.resume f (w.park f actual m).2 .proceed)) := by
  have hpark : w.park f actual m =
      ({ w with fibers := w.fibers.set f (actual.park m).1 }, actual.nextToken) := by
    simp only [World.park, Fiber.park, ite_eq_right_iff]
    intro hterminating
    obtain ⟨ops, token, cell, -, rfl⟩ := hvaries
    rcases hstays with h | h <;> simp [h] at hterminating
  rw [hpark]
  set w₁ : World σ := World.queue { w with fibers := w.fibers.set f (actual.park m).1 }
    (.resume f actual.nextToken .proceed) with hw₁
  have hget₁ : w₁.fibers.get? f = some (actual.park m).1 := by
    show (w.fibers.set f (actual.park m).1).get? f = _
    rw [Store.get?_set_of_some hget]
  have hstands₁ : Stands f view w₁ { fiber with phase := .suspended actual.nextToken m } P s := by
    obtain ⟨ops, token, cell, hcell, rfl⟩ := hvaries
    exact ⟨⟨_, hget₁, ops, token + 1, cell, hcell, rfl⟩, h.scope, h.board⟩
  -- resuming undoes the parking, so the fiber stands where it stood
  have hresume : ∀ w', LeftAlone f w₁ w' → view w'.board = view w₁.board →
      ∃ w'', (∃ fuel, w'.resume fuel f actual.nextToken .proceed = (w'', .finished ())) ∧
        EndsWith f view exit w'' := by
    intro w' halone hview
    obtain ⟨hstands', actual', hget', hops, -⟩ := hstands₁.leftAlone hget₁ halone hview
    obtain ⟨actual₂, hget₂, hvaries₂⟩ := hstands'.actual
    obtain rfl : actual₂ = actual' := Option.some.inj (hget₂.symm.trans hget')
    have hphase : actual₂.phase = .suspended actual.nextToken m := by
      obtain ⟨_, _, _, -, rfl⟩ := hvaries₂
      rfl
    have hback : Stands f view (w'.modifyFiber f fun fiber => { fiber with phase := .running })
        fiber P s := by
      refine hstands'.modify rfl ?_
      rintro _ ⟨ops, token, cell, hcell, rfl⟩
      exact ⟨ops, token, cell, hcell, by rw [← hrunning]⟩
    obtain ⟨fuel, w'', hturn, hends⟩ := k _ { actual₂ with phase := .running } hback
      (by simp only [modifyFiber, Store.get?_modify, hget', if_pos, Option.map_some]) hops
    refine ⟨w'', ⟨fuel, ?_⟩, hends⟩
    simp only [World.resume, hget', hphase, ne_eq, not_true_eq_false, if_false]
    exact hturn
  have : Nonempty (World σ) := ⟨w⟩
  choose! next hnext hends using hresume
  refine .turn hget₁ rfl ⟨⟨w.timers.now.add 0, w.timers.nextId, _⟩, ?_, rfl⟩ hnext hends
  exact Timers.mem_insert.mpr (Or.inl rfl)

/-- A step that yields is followed, some time later, by the rest of the course. -/
theorem runs_of_yield {m m' : Machine σ} {w w₁ : World σ} {fiber actual actual₁ : Fiber σ}
    (hrunning : fiber.phase = .running) (hstays : Stays m fiber) (hstays' : Stays m' fiber)
    (hget : w.fibers.get? f = some actual) (hvaries : Varies fiber actual)
    (hstep : w.step f actual m = (w₁, { machine := m', decision := .yield }))
    (h₁ : Stands f view w₁ fiber P s) (hget₁ : w₁.fibers.get? f = some actual₁)
    (k : ∀ w' actual', Stands f view w' fiber P s → w'.fibers.get? f = some actual' →
      actual'.ops = actual₁.ops → Runs f view exit m' w') :
    Runs f view exit m w := by
  obtain ⟨actual₂, hget₂, hvaries₁⟩ := h₁.actual
  obtain rfl : actual₂ = actual₁ := Option.some.inj (hget₂.symm.trans hget₁)
  refine ⟨1, _, ?_, ends_of_parked hrunning hstays' h₁ hget₁ hvaries₁ k⟩
  simp only [turn, hget, not_mustLeave hstays hvaries, Bool.false_eq_true, if_false, hstep,
    hget₁]

/-! ## The budget -/

/-- The counted step of a machine that has a budget left. -/
def counted (w : World σ) (f : Key .fiber) : World σ :=
  w.modifyFiber f fun fiber => { fiber with ops := fiber.ops + 1 }

theorem Stands.counted {w : World σ} {fiber : Fiber σ} (h : Stands f view w fiber P s) :
    Stands f view (counted w f) fiber P s := by
  refine h.modify rfl ?_
  rintro _ ⟨ops, token, cell, hcell, rfl⟩
  exact ⟨ops + 1, token, cell, hcell, rfl⟩

/-- It is enough to run to the end with a budget left: a fiber whose budget is spent yields, and
comes back with a fresh one. -/
theorem runs_of_unspent {m : Machine σ} {w : World σ} {fiber : Fiber σ}
    (hops : 0 < fiber.context.limits.maxOps) (hrunning : fiber.phase = .running)
    (hstays : Stays m fiber)
    (hcontrol : (∀ p, m.control ≠ .start p) ∧ ∀ e, m.control ≠ .leave e)
    (h : Stands f view w fiber P s)
    (k : ∀ w' actual, Stands f view w' fiber P s → w'.fibers.get? f = some actual →
      Varies fiber actual → actual.ops < fiber.context.limits.maxOps → Runs f view exit m w') :
    Runs f view exit m w := by
  obtain ⟨actual, hget, hvaries⟩ := h.actual
  rcases Nat.lt_or_ge actual.ops fiber.context.limits.maxOps with hlt | hge
  · exact k w actual h hget hvaries hlt
  · have hmax : actual.context.limits.maxOps ≤ actual.ops := by
      obtain ⟨ops, token, cell, -, rfl⟩ := hvaries
      exact hge
    set w₁ : World σ := w.modifyFiber f fun fiber => { fiber with ops := 0 } with hw₁
    have hstep : w.step f actual m = (w₁, { machine := m, decision := .yield }) := by
      unfold World.step
      cases hc : m.control with
      | start p => exact absurd hc (hcontrol.1 p)
      | leave e => exact absurd hc (hcontrol.2 e)
      | instruct p => simp only [if_pos hmax, hw₁]
      | value v => simp only [if_pos hmax, hw₁]
      | failure c => simp only [if_pos hmax, hw₁]
    have hget₁ : w₁.fibers.get? f = some { actual with ops := 0 } := by
      simp only [hw₁, modifyFiber, Store.get?_modify, hget, if_pos, Option.map_some]
    have hstands₁ : Stands f view w₁ fiber P s := by
      refine h.modify rfl ?_
      rintro _ ⟨ops, token, cell, hcell, rfl⟩
      exact ⟨0, token, cell, hcell, rfl⟩
    refine runs_of_yield hrunning hstays hstays hget hvaries hstep hstands₁ hget₁ ?_
    intro w' actual' hstands' hget' hops'
    obtain ⟨actual₂, hget₂, hvaries'⟩ := hstands'.actual
    obtain rfl : actual₂ = actual' := Option.some.inj (hget₂.symm.trans hget')
    exact k w' actual₂ hstands' hget' hvaries' (by rw [hops']; exact hops)

end Fibers.Direct
