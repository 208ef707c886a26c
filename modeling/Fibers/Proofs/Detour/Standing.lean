import Fibers.Proofs.Detour.Course
import Fibers.Proofs.Run.Turns

set_option autoImplicit false

/-! # Where a fiber stands, step by step

`Place` has what the steps of a fiber may change: the fiber itself, its references, the semaphore
of its home, the board and the clock. `Stands` says that a world agrees with it. The lemmas take
the machine of a fiber that stands somewhere through one step, one yield or one budget of steps;
what a step does is said by the caller.
-/

namespace Fibers.Detour

open World Direct

variable {σ S : Type}

/-- What the steps of a fiber depend on. -/
structure Place (σ S : Type) where
  fiber : Fiber σ
  refs : FiberRefs
  permits : Semaphore (Key .future)
  board : S
  now : Time

/-- The fiber `f` stands where `x` says, and its scope is as `P` says. -/
structure Stands (view : σ → S) (f : Key .fiber) (home : Home) (w : World σ) (x : Place σ S)
    (P : Option (Scope (Finalizer σ)) → Prop) : Prop where
  actual : ∃ actual, w.fibers.get? f = some actual ∧ Varies x.fiber actual
  scopeKey : x.fiber.scope = home.scope
  refsKey : x.fiber.context.refs = home.refs
  scope : P (w.scopes.get? home.scope)
  map : w.refs.get? home.refs = some x.refs
  permits : w.semaphores.get? home.permits = some x.permits
  board : view w.board = x.board
  now : w.now = x.now

variable {f : Key .fiber} {home : Home} {view : σ → S} {out : Outlet σ f home} {w w' : World σ}
  {x : Place σ S} {P : Option (Scope (Finalizer σ)) → Prop} {fiber : Fiber σ}

/-! ## What leaves a fiber where it stands -/

/-- A change of the fiber alone. -/
theorem Stands.modify (fiber : Fiber σ) {g : Fiber σ → Fiber σ} (h : Stands view f home w x P)
    (hscope : fiber.scope = x.fiber.scope) (hcontext : fiber.context = x.fiber.context)
    (hg : ∀ actual, Varies x.fiber actual → Varies fiber (g actual)) :
    Stands view f home (w.modifyFiber f g) { x with fiber } P := by
  obtain ⟨⟨actual, hget, hvaries⟩, hscopeKey, hrefsKey, hsc, hmap, hpermits, hboard, hnow⟩ := h
  refine ⟨⟨g actual, ?_, hg actual hvaries⟩, hscope.trans hscopeKey, ?_, hsc, hmap, hpermits,
    hboard, hnow⟩
  · simp only [modifyFiber, Store.get?_modify, hget, if_pos, Option.map_some]
  · rw [hcontext]; exact hrefsKey

/-- A change of the fiber that keeps its watchers and its context stays at home. -/
theorem stirs_modifyFiber (home : Home) (w : World σ) {g : Fiber σ → Fiber σ}
    (hg : ∀ fiber, ((g fiber).done, (g fiber).context) = (fiber.done, fiber.context)) :
    Stirs f home w (w.modifyFiber f g) := by
  refine ⟨⟨fun k hk => ?_, ?_, fun _ _ => rfl, rfl⟩, rfl⟩
  · simp only [modifyFiber, Store.get?_modify, if_neg (Ne.symm hk)]
  · simp only [modifyFiber, Store.get?_modify, if_pos, Option.map_map]
    congr 1
    funext fiber
    exact hg fiber

theorem Stands.withQueue (h : Stands view f home w x P) (rest : List (Timer (Task σ))) :
    Stands view f home (w.withQueue rest) x P :=
  ⟨h.actual, h.scopeKey, h.refsKey, h.scope, h.map, h.permits, h.board, h.now⟩

theorem Stands.queue (h : Stands view f home w x P) (task : Task σ) :
    Stands view f home (w.queue task) x P :=
  ⟨h.actual, h.scopeKey, h.refsKey, h.scope, h.map, h.permits, h.board, h.now⟩

/-- The others mind the home of a fiber: it still stands where it stood, but for the time. -/
theorem Stands.minds {actual : Fiber σ} (h : Stands view f home w x P)
    (hget : w.fibers.get? f = some actual) (hminds : Minds view f home w w') :
    Stands view f home w' { x with now := w'.now } P ∧
      ∃ actual', w'.fibers.get? f = some actual' ∧ actual'.ops = actual.ops ∧
        actual'.nextToken = actual.nextToken := by
  obtain ⟨⟨actual₀, hget₀, ops, token, cell, hcell, rfl⟩, hscopeKey, hrefsKey, hsc, hmap,
    hpermits, hboard, hnow⟩ := h
  obtain rfl : _ = actual := Option.some.inj (hget₀.symm.trans hget)
  have hfiber := hminds.fiber
  rw [hget, Option.map_some] at hfiber
  obtain ⟨actual', hget', heq⟩ := Option.map_eq_some_iff.mp hfiber
  have hdone : actual'.done.unwatched = cell.unwatched := congrArg Fiber.done heq
  have hvary : actual' = { x.fiber with ops, nextToken := token, done := actual'.done } := by
    cases actual'
    simp only [Fiber.mk.injEq] at heq ⊢
    simp [heq]
  refine ⟨⟨⟨actual', hget', ops, token, actual'.done, ?_, hvary⟩, hscopeKey, hrefsKey,
    by rw [hminds.scope]; exact hsc, hminds.refs.trans hmap, hminds.permits.trans hpermits,
    hminds.board.trans hboard, rfl⟩, actual', hget', ?_, ?_⟩
  · rw [cell_of_unwatched hdone, hcell]
  · rw [hvary]
  · rw [hvary]

/-! ## Steps of a turn -/

theorem free_of_stays {m : Machine σ} {actual : Fiber σ} (h : Stays m fiber)
    (hvaries : Varies fiber actual) : m.exiting = true ∨ actual.mustLeave = false := by
  obtain ⟨ops, token, cell, -, rfl⟩ := hvaries
  exact h.imp_right fun hterminating => by simp [hterminating, Fiber.mustLeave]

/-- A step is followed by what its end makes of the turn. -/
theorem runs_of_conclude {m : Machine σ} {actual : Fiber σ} (hget : w.fibers.get? f = some actual)
    (hvaries : Varies fiber actual) (hstays : Stays m fiber)
    (h : Ends view f home out w (conclude f (w.step f actual m))) : Runs view f home out m w := by
  refine Ends.of_stride ?_
  show Ends view f home out w (w.advance f m)
  rw [advance_of_free hget (free_of_stays hstays hvaries)]
  exact h

/-- A step that goes on is followed by the rest of the turn. -/
theorem runs_of_step {m m' : Machine σ} {actual : Fiber σ}
    (hget : w.fibers.get? f = some actual) (hvaries : Varies fiber actual) (hstays : Stays m fiber)
    (hstep : w.step f actual m = (w', { machine := m', decision := .proceed }))
    (hstirs : Stirs f home w w') (h : Runs view f home out m' w') : Runs view f home out m w := by
  refine runs_of_conclude hget hvaries hstays ?_
  rw [hstep]
  exact h.stirs hstirs

/-- The task that gives a fiber its next turn at once. -/
def prompt (w : World σ) (f : Key .fiber) (token : Nat) (r : Resume σ) : Timer (Task σ) :=
  ⟨w.timers.now.add 0, w.timers.nextId, .resume f token r⟩

theorem deadline_prompt (w : World σ) (f : Key .fiber) (token : Nat) (r : Resume σ) :
    (prompt w f token r).deadline = w.now := Time.ext (Time.nanos_add_zero _)

theorem park_of_stays {m : Machine σ} {actual : Fiber σ} (hvaries : Varies fiber actual)
    (hstays : Stays m fiber) :
    w.park f actual m = ({ w with fibers := w.fibers.set f (actual.park m).1 }, actual.nextToken) := by
  simp only [World.park, Fiber.park, ite_eq_right_iff]
  intro hterminating
  obtain ⟨ops, token, cell, -, rfl⟩ := hvaries
  rcases hstays with h | h <;> simp [h] at hterminating

/-- Putting the machine of the fiber aside stays at home. -/
theorem stirs_park {actual stored : Fiber σ} (m : Machine σ)
    (hget : w.fibers.get? f = some stored)
    (hown : (actual.done, actual.context) = (stored.done, stored.context)) :
    Stirs f home w { w with fibers := w.fibers.set f (actual.park m).1 } := by
  refine ⟨⟨fun k hk => ?_, ?_, fun _ _ => rfl, rfl⟩, rfl⟩
  · show (w.fibers.set f _).get? k = _
    rw [Store.get?_set, if_neg (Ne.symm hk)]
  · show ((w.fibers.set f _).get? f).map _ = _
    rw [Store.get?_set_of_some hget, hget]
    exact congrArg some hown

theorem keeps_queue (home : Home) (w : World σ) (task : Task σ) :
    Keeps f home w (w.queue task) := ⟨fun _ _ => rfl, rfl, fun _ _ => rfl, rfl⟩

/-- A fiber that waits for its next turn, due at once, will leave if it runs on from wherever it
stands then. -/
theorem life_of_resume {m m' : Machine σ} {actual : Fiber σ} {token : Nat} {r : Resume σ}
    {t : Timer (Task σ)} (ht : t ∈ w.timers.live) (htask : t.task = .resume f token r)
    (hnow : w.now = t.deadline) (hrunning : x.fiber.phase = .running)
    (h : Stands view f home w { x with fiber := { x.fiber with phase := .suspended token m } } P)
    (hget : w.fibers.get? f = some actual)
    (hresume : ∀ (w' : World σ) (actual' : Fiber σ), w'.fibers.get? f = some actual' →
      actual'.phase = .suspended token m →
      w'.awaken f token r =
        ⟨w'.modifyFiber f fun fiber => { fiber with phase := .running }, some (f, m')⟩)
    (k : ∀ w' actual', Stands view f home w' x P → w'.fibers.get? f = some actual' →
      actual'.ops = actual.ops → Runs view f home out m' w') :
    Life view f home out t w := by
  refine Life.intro ht (Nat.le_of_eq (congrArg Time.nanos hnow)) ?_
  intro rest w' hminds hnext
  obtain ⟨hstands', actual', hget', hops, -⟩ := h.minds hget hminds
  have hnow' : w'.now = x.now := hnext.now.trans (hnow.symm.trans h.now)
  have hphase : actual'.phase = .suspended token m := by
    obtain ⟨actual₂, hget₂, _, _, _, -, rfl⟩ := hstands'.actual
    obtain rfl := Option.some.inj (hget₂.symm.trans hget')
    rfl
  have hback : Stands view f home
      ((w'.withQueue rest).modifyFiber f fun fiber => { fiber with phase := .running }) x P := by
    have h₂ := (hstands'.withQueue rest).modify x.fiber
      (g := fun fiber => { fiber with phase := .running }) rfl rfl (by
        rintro _ ⟨ops, token, cell, hcell, rfl⟩
        exact ⟨ops, token, cell, hcell, by rw [← hrunning]⟩)
    rw [hnow'] at h₂
    exact h₂
  have hget'' : (w'.withQueue rest).fibers.get? f = some actual' := hget'
  have hruns := k _ { actual' with phase := .running } hback
    (by simp only [modifyFiber, Store.get?_modify, hget'', if_pos, Option.map_some]) hops
  have hbegin : World.begin (w'.withQueue rest) t.task =
      ⟨(w'.withQueue rest).modifyFiber f fun fiber => { fiber with phase := .running },
        some (f, m')⟩ := by
    rw [htask]
    exact hresume _ actual' hget'' hphase
  have hstirs : Stirs f home (w'.withQueue rest)
      ((w'.withQueue rest).modifyFiber f fun fiber => { fiber with phase := .running }) :=
    stirs_modifyFiber home _ fun _ => rfl
  rw [hbegin]
  exact Ends.stirs hstirs hruns

/-- Putting the machine of a fiber aside leaves it where it stands. -/
theorem Stands.park {m : Machine σ} {actual stored : Fiber σ} (h : Stands view f home w x P)
    (hget : w.fibers.get? f = some stored) (hvaries : Varies x.fiber actual) :
    Stands view f home { w with fibers := w.fibers.set f (actual.park m).1 }
      { x with fiber := { x.fiber with phase := .suspended actual.nextToken m } } P := by
  refine ⟨⟨_, Store.get?_set_of_some hget, ?_⟩, h.scopeKey, h.refsKey, h.scope, h.map, h.permits,
    h.board, h.now⟩
  obtain ⟨ops, token, cell, hcell, rfl⟩ := hvaries
  exact ⟨ops, token + 1, cell, hcell, rfl⟩

theorem awaken_proceed {m : Machine σ} {actual : Fiber σ} {token : Nat}
    (hget : w.fibers.get? f = some actual) (hphase : actual.phase = .suspended token m) :
    w.awaken f token .proceed =
      ⟨w.modifyFiber f fun fiber => { fiber with phase := .running }, some (f, m)⟩ := by
  simp only [World.awaken, hget, hphase, ne_eq, not_true_eq_false, if_false]

/-- A step that yields is followed, some time later, by the rest of the course. -/
theorem runs_of_yield {m m' : Machine σ} {w₁ : World σ} {actual actual₁ : Fiber σ}
    (hrunning : x.fiber.phase = .running) (hstays : Stays m x.fiber) (hstays' : Stays m' x.fiber)
    (hget : w.fibers.get? f = some actual) (hvaries : Varies x.fiber actual)
    (hstep : w.step f actual m = (w₁, { machine := m', decision := .yield }))
    (hstirs : Stirs f home w w₁) (h₁ : Stands view f home w₁ x P)
    (hget₁ : w₁.fibers.get? f = some actual₁)
    (k : ∀ w' actual', Stands view f home w' x P → w'.fibers.get? f = some actual' →
      actual'.ops = actual₁.ops → Runs view f home out m' w') :
    Runs view f home out m w := by
  obtain ⟨actual₂, hget₂, hvaries₁⟩ := h₁.actual
  obtain rfl : actual₂ = actual₁ := Option.some.inj (hget₂.symm.trans hget₁)
  have hlife : Life view f home out (prompt w₁ f actual₂.nextToken .proceed)
      (World.queue { w₁ with fibers := w₁.fibers.set f (actual₂.park m').1 }
        (.resume f actual₂.nextToken .proceed)) :=
    life_of_resume (Timers.mem_insert.mpr (Or.inl rfl)) rfl (deadline_prompt w₁ f _ _).symm hrunning
      ((h₁.park hget₁ hvaries₁).queue _) (Store.get?_set_of_some hget₁)
      (fun w' actual' => awaken_proceed) k
  refine runs_of_conclude hget hvaries hstays ?_
  rw [hstep]
  simp only [conclude, hget₁, park_of_stays hvaries₁ hstays']
  refine Ends.stirs (hstirs.trans (stirs_park m' hget₁ rfl)) (Ends.of_life ?_ rfl hlife)
  exact keeps_queue home _ _

/-! ## The budget -/

theorem Stands.count (h : Stands view f home w x P) : Stands view f home (w.count f) x P := by
  refine h.modify _ rfl rfl ?_
  rintro _ ⟨ops, token, cell, hcell, rfl⟩
  exact ⟨ops + 1, token, cell, hcell, rfl⟩

theorem stirs_count (home : Home) (w : World σ) : Stirs f home w (w.count f) :=
  stirs_modifyFiber home w fun _ => rfl

/-- It is enough to run on with a budget left: a fiber whose budget is spent yields, and comes back
with a fresh one. -/
theorem runs_of_unspent {m : Machine σ} (hsteady : Steady x.fiber) (hstays : Stays m x.fiber)
    (hcontrol : (∃ p, m.control = .instruct p) ∨ ∃ e, m.control = .ofExit e)
    (h : Stands view f home w x P)
    (k : ∀ w' actual, Stands view f home w' x P → w'.fibers.get? f = some actual →
      Varies x.fiber actual → actual.ops < x.fiber.context.limits.maxOps →
      Runs view f home out m w') :
    Runs view f home out m w := by
  obtain ⟨actual, hget, hvaries⟩ := h.actual
  rcases Nat.lt_or_ge actual.ops x.fiber.context.limits.maxOps with hlt | hge
  · exact k w actual h hget hvaries hlt
  · have hmax : actual.context.limits.maxOps ≤ actual.ops := by rw [hvaries.context]; exact hge
    have hstands₁ : Stands view f home (w.modifyFiber f fun fiber => { fiber with ops := 0 }) x P := by
      refine h.modify _ rfl rfl ?_
      rintro _ ⟨ops, token, cell, hcell, rfl⟩
      exact ⟨0, token, cell, hcell, rfl⟩
    have hget₁ : (w.modifyFiber f fun fiber => { fiber with ops := 0 }).fibers.get? f =
        some { actual with ops := 0 } := by
      simp only [modifyFiber, Store.get?_modify, hget, if_pos, Option.map_some]
    refine runs_of_yield hsteady.running hstays hstays hget hvaries (step_tired hcontrol hmax)
      (stirs_modifyFiber home w fun _ => rfl) hstands₁ hget₁ ?_
    intro w' actual' hstands' hget' hops'
    obtain ⟨actual₂, hget₂, hvaries'⟩ := hstands'.actual
    obtain rfl : actual₂ = actual' := Option.some.inj (hget₂.symm.trans hget')
    exact k w' actual₂ hstands' hget' hvaries' (by rw [hops']; exact hsteady.budget)

/-! ## Instructions and unwinding -/

/-- Unwinding the stack with `e`, in the middle of a step, the fiber will leave by the outlet. -/
def Unwinds (view : σ → S) (f : Key .fiber) (home : Home) (out : Outlet σ f home)
    (exiting : Bool) (e : AnyExit) (stack : List (Waiting σ)) (w : World σ) : Prop :=
  Ends view f home out w (conclude f (World.unwind f exiting e stack w))

/-- A frame that gives the machine something to go on with. -/
theorem Unwinds.of_step {exiting : Bool} {e : AnyExit} {stack : List (Waiting σ)} {m : Machine σ}
    (hunwind : World.unwind f exiting e stack w = (w', { machine := m })) (hstirs : Stirs f home w w')
    (h : Runs view f home out m w') : Unwinds view f home out exiting e stack w := by
  unfold Unwinds
  rw [hunwind]
  exact h.stirs hstirs

/-- A frame that is passed. -/
theorem Unwinds.of_pass {exiting : Bool} {e : AnyExit} {stack rest : List (Waiting σ)}
    (hunwind : World.unwind f exiting e stack w = World.unwind f exiting e rest w')
    (hstirs : Stirs f home w w') (h : Unwinds view f home out exiting e rest w') :
    Unwinds view f home out exiting e stack w := by
  unfold Unwinds
  rw [hunwind]
  exact Ends.stirs hstirs h

theorem runs_of_instruct {m : Machine σ} {p : Program σ} (hsteady : Steady x.fiber)
    (hstays : Stays m x.fiber) (hm : m.control = .instruct p) (h : Stands view f home w x P)
    (k : ∀ w' actual, Stands view f home w' x P → Varies x.fiber actual →
      ∃ w'' m', w'.instruct f actual m p = (w'', { machine := m' }) ∧ Stirs f home w' w'' ∧
        Runs view f home out m' w'') :
    Runs view f home out m w := by
  refine runs_of_unspent hsteady hstays (Or.inl ⟨p, hm⟩) h ?_
  intro w' actual hstands hget hvaries hops
  obtain ⟨w'', m', hinstruct, hstirs, hruns⟩ := k (w'.count f) actual hstands.count hvaries
  refine runs_of_step hget hvaries hstays ?_ ((stirs_count home w').trans hstirs) hruns
  rw [step_instruct hm (by rw [hvaries.context]; exact hops), hinstruct]

theorem runs_of_unwinds {m : Machine σ} {e : AnyExit} (hsteady : Steady x.fiber)
    (hstays : Stays m x.fiber) (hm : m.control = .ofExit e) (h : Stands view f home w x P)
    (k : ∀ w', Stands view f home w' x P → Unwinds view f home out m.exiting e m.stack w') :
    Runs view f home out m w := by
  refine runs_of_unspent hsteady hstays (Or.inr ⟨e, hm⟩) h ?_
  intro w' actual hstands hget hvaries hops
  refine runs_of_conclude hget hvaries hstays ?_
  rw [step_unwind hm (by rw [hvaries.context]; exact hops)]
  exact Ends.stirs (stirs_count home w') (k (w'.count f) hstands.count)

theorem traceOf_eq (h : Stands view f home w x P) :
    w.traceOf f = ⟨newest x.fiber.context.limits.maxTrace x.fiber.frames⟩ := by
  obtain ⟨actual, hget, ops, token, cell, -, rfl⟩ := h.actual
  simp only [World.traceOf, hget, Option.map_some, Option.getD_some, Fiber.trace, Trace.ofFrames_eq]
  rfl

end Fibers.Detour
