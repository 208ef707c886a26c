import Fibers.Proofs.Detour.Birth
import Fibers.Proofs.Detour.Bonds

set_option autoImplicit false

/-! # A detour through a child

A fiber that forks a program and joins the child at once makes a detour (`Program.detour`). Here it is
followed on a virtual clock with nothing else in the queue: to the fork (`eventually_fork`), from there in the
company of the child to the exit of the child (`eventually_awaited`), and back with the references of the
child merged into its own (`eventually_merged`). `Hands` says where each way of running the program ends: the
fiber hands an exit to what waits on its stack.
-/

namespace Fibers

variable {σ : Type}

/-- Goes on with the fiber that a value holds. -/
def Act.withFiber (v : Value) (k : Key .fiber → Act σ .program) : Act σ .program :=
  match v with
  | .fiber f => k f
  | _ => .panic "value is not a fiber"

/-- Runs `p` in a child and ends as the child does. -/
def Program.detour (p : Program σ) : Program σ :=
  (p.forkWith {}).bindAny fun v => .withFiber v fun c => .program (.join c)

namespace Detour

open World Direct

variable {S : Type} {view : σ → S} {f c : Key .fiber} {home : Home} {w w' : World σ}
  {fiber : Fiber σ} {refs merged : FiberRefs} {ops : Nat} {t : Timer (Task σ)} {ts : List (Timer (Task σ))}
  {K : World σ → List (Timer (Task σ)) → Prop} {P : Moment σ → Prop} {p q : Program σ} {e : AnyExit}
  {x y : Place σ S} {stack : List (Waiting σ)} {m m' : Machine σ}

/-! ## Steps that change nothing but the fiber -/

theorem strolls_instruct
    (h : ∀ w ts actual, K w ts → Varies fiber actual → (w.count f).instruct f actual
      ⟨.instruct p, stack, false⟩ p = (w.count f, { machine := m })) :
    Strolls f fiber K ⟨.instruct p, stack, false⟩ m := by
  refine ⟨Or.inl ⟨p, rfl⟩, fun w ts actual hw hvaries hops => ?_⟩
  rw [step_instruct rfl hops, h w ts actual hw hvaries]

theorem strolls_unwind
    (h : ∀ w : World σ, World.unwind f false e stack w = (w, { machine := m })) :
    Strolls f fiber K ⟨.ofExit e, stack, false⟩ m := by
  refine ⟨Or.inr ⟨e, rfl⟩, fun w ts actual _ _ hops => ?_⟩
  rw [step_unwind rfl hops, h]

/-- The step of a fiber that comes to its goal. -/
theorem advance_at (hcalm : Calm fiber) (hat : At f fiber refs ops w)
    (hops : ops < fiber.context.limits.maxOps) :
    ∃ actual, w.fibers.get? f = some actual ∧ Varies fiber actual ∧
      actual.ops < actual.context.limits.maxOps ∧ w.advance f m = conclude f (w.step f actual m) := by
  obtain ⟨⟨actual, hget, hvaries, rfl⟩, -⟩ := hat
  refine ⟨actual, hget, hvaries, by rw [hvaries.context]; exact hops, ?_⟩
  exact advance_of_free hget (free_of_stays (Or.inr hcalm.terminating) hvaries)

/-! ## To the fork -/

/-- What waits on the stack for the child that is started on a detour. -/
def pending (stack : List (Waiting σ)) : List (Waiting σ) :=
  .map (.apply .value) :: .map (.apply fun v => .withFiber v fun c => .program (.join c)) :: stack

/-- A fiber on a detour comes to start the child. -/
theorem eventually_at_fork (hcalm : Calm fiber) (hat : At f fiber refs ops w) (hlive : w.timers.live = [])
    (k : ∀ w₁ ops, Idles f w w₁ → At f fiber refs ops w₁ → ops < fiber.context.limits.maxOps →
      w₁.timers.live = [] → Moment.Eventually P ⟨w₁, some (f, ⟨.instruct (.fork p {}), pending stack, false⟩)⟩) :
    Moment.Eventually P ⟨w, some (f, ⟨.instruct p.detour, stack, false⟩)⟩ := by
  have hstable : ∀ w₁ w₂, Idles f w w₁ → Idles f w₁ w₂ → Idles f w w₂ := fun _ _ => .trans
  have hway : Way f fiber (Alone (Idles f w)) ⟨.instruct (.fork p {}), pending stack, false⟩
      ⟨.instruct p.detour, stack, false⟩ :=
    .step (strolls_instruct fun _ _ _ _ _ => rfl) (.step (strolls_instruct fun _ _ _ _ _ => rfl) .here)
  refine eventually_way hcalm (unconcerned_alone hstable) (yields_alone hstable hcalm.running)
    (Or.inl ⟨_, rfl⟩) ?_ hway ⟨rfl, .refl f w⟩ hat hlive
  rintro w₁ _ ops ⟨rfl, hidles⟩ hat hops hlive
  exact k w₁ ops hidles hat hops hlive

/-- The step that starts the child counts first. -/
theorem advance_fork (p : Program σ) (stack : List (Waiting σ)) (hcalm : Calm fiber) (hat : At f fiber refs ops w)
    (hops : ops < fiber.context.limits.maxOps) :
    ∃ parent, (w.count f).fibers.get? f = some parent ∧ Varies fiber parent ∧
      w.advance f ⟨.instruct (.fork p {}), stack, false⟩ = conclude f
        (match (w.count f).forkChild f p {} with
        | (w', .ok child) => (w', { machine := ⟨.value (.fiber child), stack, false⟩ })
        | (w', .error d) => enter f ⟨.instruct (.fork p {}), stack, false⟩ (w', .error d)) := by
  obtain ⟨actual, hget, hvaries, hbudget, hadvance⟩ :=
    advance_at (m := ⟨.instruct (.fork p {}), stack, false⟩) hcalm hat hops
  refine ⟨_, get?_count hget, ?_, ?_⟩
  · obtain ⟨ops, token, cell, hcell, rfl⟩ := hvaries
    exact ⟨ops + 1, token, cell, hcell, rfl⟩
  · rw [hadvance, step_instruct rfl hbudget]
    rfl

/-- A fiber on a detour starts the child. -/
theorem eventually_fork (view : σ → S) {sc : Scope (Finalizer σ)} {copy : FiberRefs}
    {permits : Semaphore (Key .future)} (hcalm : Calm fiber) (hat : At f fiber refs ops w)
    (hlive : w.timers.live = []) (hsc : w.scopes.get? fiber.scope = some sc) (hopen : sc.isOpen = true)
    (hfork : refs.fork = .ok copy) (hpermits : w.semaphores.get? fiber.semaphores.top = some permits)
    (k : ∀ w₁ w₂ c home base parent child t ops, Idles f w w₁ → Varies fiber parent →
      Born view f c home base parent child p t copy permits w₁ w₂ → At f fiber refs ops w₂ →
      w₂.timers.live = [t] →
      Moment.Eventually P ⟨w₂, some (f, ⟨.value (.fiber c), pending stack, false⟩)⟩) :
    Moment.Eventually P ⟨w, some (f, ⟨.instruct p.detour, stack, false⟩)⟩ := by
  refine eventually_at_fork hcalm hat hlive fun w₁ ops hidles hat hops hlive => ?_
  obtain ⟨parent, hget, hvaries, hadvance⟩ := advance_fork p (pending stack) hcalm hat hops
  have hcount : Idles f w (w₁.count f) := hidles.trans (idles_modifyFiber f w₁ _)
  have hparent : parent.scope = fiber.scope ∧ parent.semaphores.top = fiber.semaphores.top := by
    obtain ⟨_, _, _, -, rfl⟩ := hvaries
    exact ⟨rfl, rfl⟩
  obtain ⟨w₂, c, home, base, child, t, heq, hborn⟩ := forkChild_of_open (p := p) view hget
    (by rw [hvaries.context]; exact hcalm.budget)
    (by rw [congrArg World.scopes hcount.rest, hparent.1]; exact hsc) hopen
    (by rw [hvaries.context]; exact hat.count.map) hfork
    (by rw [congrArg World.semaphores hcount.rest, hparent.2]; exact hpermits)
  refine .of_tick ?_
  show Moment.Eventually P (w₁.advance f _)
  rw [hadvance, heq]
  refine k (w₁.count f) w₂ c home base parent child t (ops + 1) hcount hvaries hborn ?_ ?_
  · obtain ⟨⟨actual, hget', hrest⟩, hmap⟩ := hat.count
    refine ⟨⟨actual, hborn.fiber.trans hget', hrest⟩, ?_⟩
    rw [← hvaries.context, hborn.map, hvaries.context]
    exact hmap
  · rw [hborn.live]
    show Timers.insert t w₁.timers.live = [t]
    rw [hlive]
    rfl

/-! ## In the company of the child -/

/-- The child has its references at home. -/
theorem refsOf_kid (hne : f ≠ c) (hK : Kid view c home e y w ts) : (w.count f).refsOf c = home.refs := by
  have hget : (w.count f).fibers.get? c = w.fibers.get? c := (idles_modifyFiber f w _).others c hne.symm
  rcases hK with ⟨-, hgone⟩ | ⟨t, -, -, hkept⟩
  · obtain ⟨record, hrecord, -, hrefs⟩ := hgone.exit
    simp only [World.refsOf, hget, hrecord, Option.map_some, Option.getD_some, hrefs]
  · obtain ⟨record, hrecord, -, hrefs⟩ := hkept
    simp only [World.refsOf, hget, hrecord, Option.map_some, Option.getD_some, hrefs]

/-- A fiber that is given its child joins it: it comes to wait, and goes on with the exit of the child. -/
theorem eventually_awaited (hne : f ≠ c) (hrefs : fiber.context.refs ≠ home.refs) (hcalm : Calm fiber)
    (hK : Kid view c home e y w ts) (hat : At f fiber refs ops w) (hlive : w.timers.live = ts)
    (k : ∀ w, Gone view c home e y w → At f fiber refs 0 w → w.timers.live = [] →
      Moment.Eventually P ⟨w, some (f, ⟨.instruct (.succeed (.exit e)),
        .map (.sequel (.joined fiber.context.refs home.refs)) :: stack, false⟩)⟩) :
    Moment.Eventually P ⟨w, some (f, ⟨.value (.fiber c), pending stack, false⟩)⟩ := by
  have hway : Way f fiber (Kid view c home e y)
      ⟨.instruct (.wait (.done c)), .map (.sequel (.joined fiber.context.refs home.refs)) :: stack, false⟩
      ⟨.value (.fiber c), pending stack, false⟩ := by
    refine .step (n := ⟨.instruct (.succeed (.fiber c)),
      .map (.apply fun v => .withFiber v fun c => .program (.join c)) :: stack, false⟩)
      (strolls_unwind (e := .success (.fiber c)) fun _ => rfl) ?_
    refine .step (n := ⟨.value (.fiber c),
      .map (.apply fun v => .withFiber v fun c => .program (.join c)) :: stack, false⟩)
      (strolls_instruct fun _ _ _ _ _ => rfl) ?_
    refine .step (n := ⟨.instruct (.join c), stack, false⟩)
      (strolls_unwind (e := .success (.fiber c)) fun _ => rfl) ?_
    refine .step (n := ⟨.instruct (.flatMap (.wait (.done c))
      (.sequel (.joined fiber.context.refs home.refs))), stack, false⟩)
      (strolls_instruct fun w ts actual hK hvaries => ?_) (.step (strolls_instruct fun _ _ _ _ _ => rfl) .here)
    simp only [instruct, refsOf_kid hne hK, hvaries.context]
  exact eventually_way hcalm (unconcerned_kid hne.symm) (yields_kid hne hrefs hcalm.running)
    (Or.inl ⟨_, rfl⟩)
    (fun _ _ _ hK hat hops hlive => eventually_wait hne hrefs hcalm k hK hat hops hlive) hway hK hat hlive

/-! ## Back -/

/-- The fiber hands `e` to what waits on its stack, standing at `y`. -/
def Hands (view : σ → S) (f : Key .fiber) (home : Home) (e : AnyExit) (y : Place σ S)
    (stack : List (Waiting σ)) (z : Moment σ) : Prop :=
  ∃ w, Stands view f home w y (fun _ => True) ∧ z = conclude f (World.unwind f false e stack w)

/-- A fiber that is alone comes to hand an exit to what waits on its stack. -/
theorem eventually_hands (stack : List (Waiting σ)) {permits : Key .semaphore} (hcalm : Calm fiber) (hat : At f fiber y.refs ops w)
    (hpermits : w.semaphores.get? permits = some y.permits) (hboard : view w.board = y.board)
    (hnow : w.now = y.now) (hlive : w.timers.live = [])
    (hway : Way f fiber (Alone (Idles f w)) ⟨.ofExit e, stack, false⟩ m) :
    Moment.Eventually
      (Hands view f ⟨fiber.scope, fiber.context.refs, permits⟩ e { y with fiber } stack) ⟨w, some (f, m)⟩ := by
  have hstable : ∀ w₁ w₂, Idles f w w₁ → Idles f w₁ w₂ → Idles f w w₂ := fun _ _ => .trans
  refine eventually_way hcalm (unconcerned_alone hstable) (yields_alone hstable hcalm.running)
    (Or.inr ⟨e, rfl⟩) ?_ hway ⟨rfl, .refl f w⟩ hat hlive
  rintro w₁ _ ops ⟨rfl, hidles⟩ hat hops -
  obtain ⟨actual, -, -, hbudget, hadvance⟩ := advance_at (m := ⟨.ofExit e, stack, false⟩) hcalm hat hops
  have hcount : Idles f w (w₁.count f) := hidles.trans (idles_modifyFiber f w₁ _)
  refine .of_tick (.now ⟨w₁.count f, ?_, ?_⟩)
  · obtain ⟨⟨actual, hget, hvaries, -⟩, hmap⟩ := hat.count
    refine ⟨⟨actual, hget, hvaries⟩, rfl, rfl, trivial, hmap, ?_, ?_, hcount.now.trans hnow⟩
    · rw [congrArg World.semaphores hcount.rest]
      exact hpermits
    · rw [congrArg World.board hcount.rest]
      exact hboard
  · show w₁.advance f _ = _
    rw [hadvance, step_unwind rfl hbudget]

/-- Merging the references of the child succeeds, and changes the references of the fiber alone. -/
theorem joinRefs_of_gone (hrefs : fiber.context.refs ≠ home.refs)
    (hmerge : (refs.join y.refs).2 = .ok ()) (hgone : Gone view c home e y w)
    (hat : At f fiber refs ops w) :
    w.joinRefs fiber.context.refs home.refs =
      ({ w with refs := w.refs.set fiber.context.refs (refs.join y.refs).1 }, .ok ()) := by
  simp only [joinRefs, if_neg hrefs, World.refMap, hat.map, hgone.map, Option.getD_some, hmerge]

/-- A fiber that has been told how its child has ended merges its references, and goes on as the child has
ended. -/
theorem eventually_merged (stack : List (Waiting σ)) (hne : c ≠ f) (hrefs : fiber.context.refs ≠ home.refs) (hcalm : Calm fiber)
    (hmerge : (refs.join y.refs).2 = .ok ()) (hgone : Gone view c home e y w)
    (hat : At f fiber refs ops w) (hlive : w.timers.live = []) :
    Moment.Eventually
      (Hands view f ⟨fiber.scope, fiber.context.refs, home.permits⟩ e
        ⟨fiber, (refs.join y.refs).1, y.permits, y.board, y.now⟩ stack)
      ⟨w, some (f, ⟨.instruct (.succeed (.exit e)),
        .map (.sequel (.joined fiber.context.refs home.refs)) :: stack, false⟩)⟩ := by
  have hstable : ∀ w w', Gone view c home e y w → Idles f w w' → Gone view c home e y w' :=
    fun _ _ => Gone.idles hne
  have hway : Way f fiber (Alone (Gone view c home e y))
      ⟨.value (.exit e), .map (.sequel (.joined fiber.context.refs home.refs)) :: stack, false⟩
      ⟨.instruct (.succeed (.exit e)), .map (.sequel (.joined fiber.context.refs home.refs)) :: stack, false⟩ :=
    .step (strolls_instruct fun _ _ _ _ _ => rfl) .here
  refine eventually_way hcalm (unconcerned_alone hstable) (yields_alone hstable hcalm.running)
    (Or.inr ⟨.success (.exit e), rfl⟩) ?_ hway ⟨rfl, hgone⟩ hat hlive
  rintro w _ ops ⟨rfl, hgone⟩ hat hops hlive
  obtain ⟨actual, -, -, hbudget, hadvance⟩ := advance_at (m := ⟨.value (.exit e),
    .map (.sequel (.joined fiber.context.refs home.refs)) :: stack, false⟩) hcalm hat hops
  have hgone' : Gone view c home e y (w.count f) := hgone.idles hne (idles_modifyFiber f w _)
  set after : World σ := { w.count f with
    refs := (w.count f).refs.set fiber.context.refs (refs.join y.refs).1 } with hafter
  have hunwind : World.unwind f false (.success (.exit e))
      (.map (.sequel (.joined fiber.context.refs home.refs)) :: stack) (w.count f) =
        (after, { machine := ⟨.instruct (.ofExit e), stack, false⟩ }) := by
    simp only [World.unwind, unwindValue, proceedWith, follow,
      joinRefs_of_gone hrefs hmerge hgone' hat.count, enter]
    rfl
  have hat' : At f fiber (refs.join y.refs).1 (ops + 1) after :=
    ⟨hat.count.found, Store.get?_set_of_some hat.count.map⟩
  refine .of_tick ?_
  show Moment.Eventually _ (w.advance f _)
  rw [hadvance, step_unwind (e := .success (.exit e)) rfl hbudget]
  dsimp only
  rw [hunwind]
  exact eventually_hands stack (y := ⟨fiber, (refs.join y.refs).1, y.permits, y.board, y.now⟩) hcalm hat'
    hgone'.permits hgone'.board hgone'.now hlive (.step (strolls_instruct fun _ _ _ _ _ => by cases e <;> rfl) .here)

/-! ## A fork that panics -/

/-- Where the references of the fiber cannot be forked the detour ends with the panic, and the program is not
run. -/
theorem eventually_panics {sc : Scope (Finalizer σ)} {d : Defect} {permits : Key .semaphore}
    (hcalm : Calm fiber) (hat : At f fiber y.refs ops w)
    (hpermits : w.semaphores.get? permits = some y.permits) (hboard : view w.board = y.board)
    (hnow : w.now = y.now) (hlive : w.timers.live = [])
    (hsc : w.scopes.get? fiber.scope = some sc) (hopen : sc.isOpen = true)
    (hfork : y.refs.fork = .error d) :
    Moment.Eventually
      (Hands view f ⟨fiber.scope, fiber.context.refs, permits⟩ (panicked { y with fiber } d) { y with fiber }
        stack)
      ⟨w, some (f, ⟨.instruct p.detour, stack, false⟩)⟩ := by
  refine eventually_at_fork hcalm hat hlive fun w₁ ops hidles hat hops hlive => ?_
  obtain ⟨parent, hget, hvaries, hadvance⟩ := advance_fork p (pending stack) hcalm hat hops
  have hcount : Idles f w (w₁.count f) := hidles.trans (idles_modifyFiber f w₁ _)
  obtain ⟨sequence, scopes, heq⟩ := forkChild_of_panic (p := p) hget
    (show (w₁.count f).scopes.get? parent.scope = some sc by
      rw [congrArg World.scopes hcount.rest]
      obtain ⟨_, _, _, -, rfl⟩ := hvaries
      exact hsc)
    hopen (by rw [hvaries.context]; exact hat.count.map) hfork
  set after : World σ := { w₁.count f with
    sequence := sequence
    scopes := scopes } with hafter
  have hat' : At f fiber y.refs (ops + 1) after := ⟨hat.count.found, hat.count.map⟩
  have htrace : after.traceOf f = ⟨newest fiber.context.limits.maxTrace fiber.frames⟩ := by
    obtain ⟨actual, hget, ⟨ops, token, cell, -, rfl⟩, -⟩ := hat'.found
    simp only [World.traceOf, hget, Option.map_some, Option.getD_some, Fiber.trace, Trace.ofFrames_eq]
    rfl
  have hpermits' : after.semaphores.get? permits = some y.permits := by
    show (w₁.count f).semaphores.get? permits = _
    rw [congrArg World.semaphores hcount.rest]
    exact hpermits
  have hboard' : view after.board = y.board := by
    show view (w₁.count f).board = _
    rw [congrArg World.board hcount.rest]
    exact hboard
  refine .of_tick ?_
  show Moment.Eventually _ (w₁.advance f _)
  rw [hadvance, heq]
  dsimp only [enter, conclude]
  rw [htrace]
  -- the frames that wait for the child let the panic through
  exact eventually_hands (pending stack) (e := panicked { y with fiber } d) (y := { y with fiber })
    hcalm hat' hpermits' hboard' (hcount.now.trans hnow) hlive .here

end Detour

end Fibers
