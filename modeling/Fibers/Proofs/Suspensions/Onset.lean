import Fibers.Proofs.Suspensions.Tending

set_option autoImplicit false

/-! # How a suspension begins

A fiber that is suspended under a token was so before a change, or it has just been started
(`Changes.rested`). At the end of its own step a fiber is suspended because it yields, or because it
comes to wait (`suspended_conclude`). When it yields or is started the task that lets it go on is in the
queue at once; when it waits it is an observer of what it waits for, if that is there.
-/

namespace Fibers.World

variable {σ : Type} {L : Licence} {actor : Option (Key .fiber)} {w w' : World σ} {k : Wake}
  {y y' : Fiber σ} {m : Machine σ}

/-! ## Of other fibers -/

/-- The fiber of `k`, which was `y`, rests: if it has been told meanwhile that its scope is closing, the
resumption that ends it is in the queue. -/
structure Rests (w' : World σ) (k : Wake) (y y' : Fiber σ) : Prop where
  scope : y'.scope = y.scope
  phase : y'.phase = y.phase
  masks : y'.masks = y.masks
  told : y'.terminating = true → y.terminating = true ∨ w'.Queued k .terminate

theorem Rests.refl (w' : World σ) (k : Wake) (y : Fiber σ) : Rests w' k y y :=
  ⟨rfl, rfl, rfl, Or.inl⟩

/-- A change of the observers of fibers, or of the names that wait for their masks, lets all of them rest. -/
theorem Rests.of_eq (hy : y' = { y with done := y'.done, deferred := y'.deferred }) :
    Rests w' k y y' :=
  ⟨by rw [hy], by rw [hy], by rw [hy], fun h => Or.inl (by rwa [hy] at h)⟩

theorem Rests.trans {y'' : Fiber σ} (htends : Tends L w w') (h : Rests w k y y') (h' : Rests w' k y' y'') :
    Rests w' k y y'' where
  scope := h'.scope.trans h.scope
  phase := h'.phase.trans h.phase
  masks := h'.masks.trans h.masks
  told := fun ht => (h'.told ht).elim (fun ht => (h.told ht).imp_right (htends.queued k _)) Or.inr

/-- Telling a fiber that its scope is closing puts the resumption that ends it in the queue. -/
theorem rests_scopeClosing {f : Key .fiber} (hy' : (w.scopeClosing f).fibers.get? k.fiber = some y')
    (hp : y'.phase = .suspended k.token m) :
    ∃ y, w.fibers.get? k.fiber = some y ∧ Rests (w.scopeClosing f) k y y' := by
  have hget := get?_scopeClosing w f k.fiber
  rw [hy'] at hget
  by_cases hf : f = k.fiber
  · subst hf
    rw [if_pos rfl] at hget
    obtain ⟨y, hy, rfl⟩ := Option.map_eq_some_iff.mp hget.symm
    refine ⟨y, hy, rfl, rfl, rfl, fun _ => Or.inr ?_⟩
    have hmarked : (w.modifyFiber k.fiber fun fiber => { fiber with terminating := true }).fibers.get?
        k.fiber = some { y with terminating := true } := by
      rw [modifyFiber, Store.get?_modify, if_pos rfl, hy, Option.map_some]
    have hphase : y.phase = .suspended k.token m := hp
    simp only [scopeClosing, hmarked, hphase]
    exact queued_self _ k .terminate
  · rw [if_neg hf] at hget
    exact ⟨y', hget.symm, .refl _ k y'⟩

theorem rests_scopesClosing {fs : List (Key .fiber)}
    (hy' : (fs.foldl scopeClosing w).fibers.get? k.fiber = some y')
    (hp : y'.phase = .suspended k.token m) :
    ∃ y, w.fibers.get? k.fiber = some y ∧ Rests (fs.foldl scopeClosing w) k y y' := by
  induction fs generalizing w with
  | nil => exact ⟨y', hy', .refl _ k y'⟩
  | cons f rest ih =>
      obtain ⟨y₁, hy₁, hrests₁⟩ := ih hy'
      obtain ⟨y, hy, hrests⟩ := rests_scopeClosing hy₁ (hrests₁.phase ▸ hp)
      have htends : Tends .none (w.scopeClosing f) (rest.foldl scopeClosing (w.scopeClosing f)) :=
        .foldl tends_scopeClosing rest _
      exact ⟨y, hy, hrests.trans htends hrests₁⟩

theorem rests_requestClose {s : Key .scope} {e : AnyExit}
    (hy' : (w.requestClose s e).1.fibers.get? k.fiber = some y')
    (hp : y'.phase = .suspended k.token m) :
    ∃ y, w.fibers.get? k.fiber = some y ∧ Rests (w.requestClose s e).1 k y y' := by
  unfold requestClose at hy' ⊢
  split at hy'
  · exact ⟨y', hy', .refl _ k y'⟩
  · obtain ⟨y, hy, hrests⟩ := rests_scopesClosing hy' hp
    refine ⟨y, ?_, hrests⟩
    split at hy
    · rwa [fibers_cancelFinalizer] at hy
    · exact hy

/-- A fiber that is hung on a scope has not started, so that it is not the one that is suspended. -/
theorem rests_newFiber {c : Context} {s : Key .scope} {p : Program σ} {services : Services}
    {inherited : List Frame}
    (hy' : (w.newFiber c s p services inherited).1.fibers.get? k.fiber = some y')
    (hp : y'.phase = .suspended k.token m) :
    ∃ y, w.fibers.get? k.fiber = some y ∧ Rests (w.newFiber c s p services inherited).1 k y y' := by
  obtain ⟨x, hfresh, hnew⟩ : ∃ x : Fiber σ, (∃ m, x.phase = .notStarted m) ∧
      (w.newFiber c s p services inherited).1 =
        hook { (w.newSemaphore c.concurrency).1 with fibers := (w.fibers.add x).1 } s
          (w.fibers.add x).2 := ⟨_, ⟨_, rfl⟩, rfl⟩
  rw [hnew] at hy' ⊢
  set w₁ : World σ := { (w.newSemaphore c.concurrency).1 with fibers := (w.fibers.add x).1 } with hw₁
  have hrests : ∃ y₁, w₁.fibers.get? k.fiber = some y₁ ∧
      Rests (w₁.hook s (w.fibers.add x).2) k y₁ y' := by
    unfold hook at hy' ⊢
    split at hy'
    · exact ⟨y', hy', .refl _ k y'⟩
    · exact rests_scopeClosing hy' hp
  obtain ⟨y₁, hy₁, hrests⟩ := hrests
  refine ⟨y₁, ?_, hrests⟩
  rw [hw₁, Store.get?_add] at hy₁
  split at hy₁
  · cases hy₁
    obtain ⟨n, hn⟩ := hfresh
    rw [hrests.phase, hn] at hp
    cases hp
  · exact hy₁

/-- A fiber that is started has a task in the queue that lets it go on. -/
theorem rests_startFiber {f : Key .fiber} (hy' : (w.startFiber f).fibers.get? k.fiber = some y')
    (hp : y'.phase = .suspended k.token m) :
    (w.startFiber f).Queued k .proceed ∨
      ∃ y, w.fibers.get? k.fiber = some y ∧ Rests (w.startFiber f) k y y' := by
  have hsame : w.startFiber f = w → (w.startFiber f).Queued k .proceed ∨
      ∃ y, w.fibers.get? k.fiber = some y ∧ Rests (w.startFiber f) k y y' := fun heq =>
    Or.inr ⟨y', heq ▸ hy', .refl _ k y'⟩
  unfold startFiber at hy' hsame ⊢
  cases hget : w.fibers.get? f with
  | none =>
      rw [hget] at hsame
      exact hsame rfl
  | some x =>
      rw [hget] at hy' hsame
      dsimp only at hy' hsame ⊢
      cases hphase : x.phase with
      | running =>
          rw [hphase] at hsame
          exact hsame rfl
      | suspended t n =>
          rw [hphase] at hsame
          exact hsame rfl
      | done e =>
          rw [hphase] at hsame
          exact hsame rfl
      | notStarted n =>
          rw [hphase] at hy'
          have hset : (w.fibers.set f (x.park n).1).get? k.fiber = some y' := hy'
          by_cases hf : f = k.fiber
          · subst hf
            rw [Store.get?_set_of_some hget] at hset
            cases hset
            obtain ⟨g, t⟩ := k
            obtain ⟨rfl, -⟩ := Phase.suspended.inj hp
            exact Or.inl (queued_self _ ⟨g, _⟩ .proceed)
          · rw [Store.get?_set, if_neg hf] at hset
            exact Or.inr ⟨y', hset, .refl _ k y'⟩

/-- A fiber that is suspended after a change of somebody else's was so before, or was started. -/
theorem Change.rests (h : Change L actor w w') (hactor : actor ≠ some k.fiber)
    (hy' : w'.fibers.get? k.fiber = some y') (hp : y'.phase = .suspended k.token m) :
    w'.Queued k .proceed ∨ ∃ y, w.fibers.get? k.fiber = some y ∧ Rests w' k y y' := by
  have hfibers : ∀ {w₁ : World σ}, w'.fibers = w₁.fibers →
      ∃ y, w₁.fibers.get? k.fiber = some y ∧ Rests w' k y y' :=
    fun heq => ⟨y', heq ▸ hy', .refl w' k y'⟩
  -- a touch of any fiber
  have htouch : ∀ {w₁ w₂ : World σ} {f : Key .fiber} {x x' z : Fiber σ}, w₁.fibers.get? f = some x →
      Touches x x' → w₂.fibers = w₁.fibers.set f x' → w₂.fibers.get? k.fiber = some z →
      Rests w' k z y' → ∃ y, w₁.fibers.get? k.fiber = some y ∧ Rests w' k y y' := by
    intro w₁ w₂ f x x' z hx ht heq hz hrests
    rw [heq] at hz
    by_cases hf : f = k.fiber
    · subst hf
      rw [Store.get?_set_of_some hx] at hz
      cases hz
      have hrest : Rests w' k x x' := .of_eq ht.rest
      exact ⟨x, hx, hrest.trans (.refl (L := L) w') hrests⟩
    · rw [Store.get?_set, if_neg hf] at hz
      exact ⟨z, hz, hrests⟩
  cases h with
  | elsewhere he => exact Or.inr (hfibers he.fibers)
  | touch hx ht => exact Or.inr (htouch hx ht rfl hy' (.refl _ k y'))
  | contest hnone hthere h =>
      clear hnone hthere
      right
      -- backwards through the opening
      induction h using Relation.ReflTransGen.head_induction_on with
      | refl => exact ⟨y', hy', .refl _ k y'⟩
      | head hstep _ ih =>
          obtain ⟨z, hz, hrests⟩ := ih
          cases hstep with
          | elsewhere he => exact ⟨z, he.fibers ▸ hz, hrests⟩
          | touch hx ht => exact htouch hx ht rfl hz hrests
  | @own f x x' hf hx ho =>
      have hne : f ≠ k.fiber := fun heq => hactor (heq ▸ hf)
      rw [Store.get?_set, if_neg hne] at hy'
      exact Or.inr ⟨y', hy', .refl _ k y'⟩
  | enlist => exact Or.inr (rests_newFiber hy' hp)
  | launch => exact rests_startFiber hy' hp
  | newScope => exact Or.inr (hfibers rfl)
  | @forkScope s owner =>
      obtain ⟨-, -, heq⟩ := parts_register (w.newScope owner (w.scope s).strategy).1 s
        (.closeChild (w.newScope owner (w.scope s).strategy).2 (w.scope s).owner)
      exact Or.inr (hfibers heq)
  | register => exact Or.inr (hfibers (parts_register w _ _).2.2)
  | take => exact Or.inr (hfibers (fibers_takeFinalizer w _))
  | lent =>
      refine Or.inr (hfibers ?_)
      unfold takeLent
      split
      · exact fibers_takeFinalizer w _
      · rfl
  | close => exact Or.inr (rests_requestClose hy' hp)
  | claim => exact Or.inr (hfibers rfl)
  | publish => exact Or.inr (hfibers (fibers_publish w _ _))

theorem Changes.rests (h : Changes L actor w w') (hactor : actor ≠ some k.fiber)
    (hy' : w'.fibers.get? k.fiber = some y') (hp : y'.phase = .suspended k.token m) :
    w'.Queued k .proceed ∨ ∃ y, w.fibers.get? k.fiber = some y ∧ Rests w' k y y' := by
  induction h using Relation.ReflTransGen.head_induction_on with
  | refl => exact Or.inr ⟨y', hy', .refl _ k y'⟩
  | @head w₁ w₂ hstep hlater ih =>
      rcases ih with hq | ⟨y₂, hy₂, hrests⟩
      · exact Or.inl hq
      · have htends : Tends L w₂ w' := Changes.tends hlater
        rcases hstep.rests hactor hy₂ (hrests.phase ▸ hp) with hq | ⟨y₁, hy₁, hrests₁⟩
        · exact Or.inl (htends.queued k _ hq)
        · exact Or.inr ⟨y₁, hy₁, hrests₁.trans htends hrests⟩

theorem fibers_park (w : World σ) (f : Key .fiber) (y : Fiber σ) (m : Machine σ) :
    (w.park f y m).1.fibers = w.fibers.set f (y.park m).1 := by
  unfold park
  dsimp only
  split <;> rfl

/-- The end of a step of somebody else changes of a fiber at most who waits for its end. -/
theorem get?_conclude_of_ne {f g : Key .fiber} {stepped : World σ × Stepped σ} (hfg : f ≠ g)
    (hy' : (conclude f stepped).world.fibers.get? g = some y') :
    ∃ y, stepped.1.fibers.get? g = some y ∧ y' = { y with done := y'.done } := by
  obtain ⟨w, m, d⟩ := stepped
  have hset : ∀ {x : Fiber σ}, (w.fibers.set f x).get? g = some y' →
      ∃ y, w.fibers.get? g = some y ∧ y' = { y with done := y'.done } := by
    intro x hget
    rw [Store.get?_set, if_neg hfg] at hget
    exact ⟨y', hget, rfl⟩
  have hpark : ∀ {z y₁ : Fiber σ} {n : Machine σ}, (w.park f z n).1.fibers.get? g = some y₁ →
      w.fibers.get? g = some y₁ := by
    intro z y₁ n hget
    rwa [fibers_park, Store.get?_set, if_neg hfg] at hget
  cases d with
  | proceed => exact ⟨y', hy', rfl⟩
  | yield =>
      simp only [conclude] at hy'
      split at hy'
      · exact ⟨y', hy', rfl⟩
      · exact ⟨y', hpark hy', rfl⟩
  | await a release =>
      simp only [conclude] at hy'
      split at hy'
      · exact ⟨y', hy', rfl⟩
      · split at hy'
        · obtain ⟨y, hy, heq⟩ := fibers_subscribe hy'
          exact ⟨y, hpark hy, heq⟩
        · simp only [modifyFiber, Store.get?_modify, if_neg hfg] at hy'
          exact ⟨y', hpark hy', rfl⟩
  | done e =>
      simp only [conclude, finishFiber] at hy'
      split at hy'
      · exact ⟨y', hy', rfl⟩
      · rename_i x hx
        split at hy'
        · rw [modifyFiber, Store.modify_eq_set _ hx] at hy'
          exact hset hy'
        · rw [foldl_keeps fibers _ (fun w o => fibers_notifyDone f e w o), modifyFiber,
            Store.modify_eq_set _ hx] at hy'
          exact hset hy'

/-! ## Of the fiber in its turn -/

/-- What is waited for is there. -/
def Has (w : World σ) : Awaited → Prop
  | .future f => (w.futures.get? f).isSome = true
  | .done f => (w.fibers.get? f).isSome = true
  | .closed s => (w.scopes.get? s).isSome = true
  | .decided t => (w.tallies.get? t).isSome = true

theorem has_park {f : Key .fiber} {a : Awaited} : (w.park f y m).1.Has a ↔ w.Has a := by
  cases a with
  | done g =>
      simp only [Has, fibers_park, Store.get?_set]
      split
      · rw [Option.isSome_map]
      · rfl
  | future g =>
      unfold park
      dsimp only
      split <;> rfl
  | closed s =>
      unfold park
      dsimp only
      split <;> rfl
  | decided t =>
      unfold park
      dsimp only
      split <;> rfl

/-- A fiber that comes to wait for what has not happened yet is an observer of it, if it is there. -/
theorem observed_subscribe {a : Awaited} (hnone : w.settledProgram? a = none) (hhas : w.Has a) :
    (w.subscribe k a).Observed k a := by
  cases a with
  | future f =>
      obtain ⟨cell, hcell⟩ := Option.isSome_iff_exists.mp hhas
      cases cell with
      | settled outcome =>
          simp only [settledProgram?, future, hcell, Option.getD_some, Cell.outcome?, Option.map_some] at hnone
          cases hnone
      | pending os n =>
          simp only [subscribe, watchFuture, future, hcell, Option.getD_some, Cell.attach?]
          exact ⟨_, Store.get?_set_of_some hcell, (n, .wake k), List.mem_concat_self, rfl⟩
  | done f =>
      obtain ⟨x, hx⟩ := Option.isSome_iff_exists.mp hhas
      cases hdone : x.done with
      | settled outcome =>
          simp only [settledProgram?, hx, Option.bind_some, Fiber.exit?, hdone, Cell.outcome?,
            Option.map_some] at hnone
          cases hnone
      | pending os n =>
          simp only [subscribe, watchFiber, hx, hdone, Cell.attach?, modifyFiber, Store.modify_eq_set _ hx]
          exact ⟨_, Store.get?_set_of_some hx, (n, .wake k), List.mem_concat_self, rfl⟩
  | closed s =>
      obtain ⟨sc, hsc⟩ := Option.isSome_iff_exists.mp hhas
      cases hcell : sc.closed with
      | settled outcome =>
          simp only [settledProgram?, scope_of_get hsc, hcell, Cell.outcome?] at hnone
          cases outcome <;> cases hnone
      | pending os n =>
          simp only [subscribe, scope_of_get hsc, hcell, Cell.attach?]
          exact ⟨_, Store.get?_set_of_some hsc, (n, k), List.mem_concat_self, rfl⟩
  | decided t =>
      obtain ⟨tally, htally⟩ := Option.isSome_iff_exists.mp hhas
      cases hcell : tally.decided with
      | settled outcome =>
          simp only [settledProgram?, World.tally, htally, Option.getD_some, hcell, Cell.outcome?] at hnone
          cases outcome <;> cases hnone
      | pending os n =>
          simp only [subscribe, World.tally, htally, Option.getD_some, hcell, Cell.attach?]
          exact ⟨_, Store.get?_set_of_some htally, (n, k), List.mem_concat_self, rfl⟩

/-- A fiber that has been told and is put aside, unless it is on its way out, has the resumption that ends
it in the queue. -/
theorem terminate_park {f : Key .fiber} (y : Fiber σ) (m : Machine σ) (hexiting : m.exiting = false)
    (hterm : y.terminating = true) : (w.park f y m).1.Queued ⟨f, y.nextToken⟩ .terminate := by
  have hends : (!m.exiting && y.terminating) = true := by rw [hexiting, hterm]; rfl
  unfold park
  dsimp only
  rw [if_pos (show (!m.exiting && y.terminating) = true from hends)]
  exact queued_self _ ⟨f, y.nextToken⟩ .terminate

/-- A fiber that is suspended at the end of its own step yields, and a task lets it go on, or it waits for
something that has not happened. It observes that, if it is there, and if it has been told that its
scope is closing, and is not on its way out, the resumption that ends it is in the queue. -/
theorem suspended_conclude {f : Key .fiber} {t : Nat} {stepped : World σ × Stepped σ}
    (hy : stepped.1.fibers.get? f = some y) (hrun : y.phase = .running)
    (hy' : (conclude f stepped).world.fibers.get? f = some y') (hp : y'.phase = .suspended t m) :
    t = y.nextToken ∧ ((conclude f stepped).world.Queued ⟨f, t⟩ .proceed ∨
      ∃ a release, stepped.2.decision = .await a release ∧ stepped.1.settledProgram? a = none ∧
        (stepped.1.Has a → (conclude f stepped).world.Observed ⟨f, t⟩ a) ∧
        (m.exiting = false → y'.terminating = true →
          (conclude f stepped).world.Queued ⟨f, t⟩ .terminate)) := by
  obtain ⟨w, n, d⟩ := stepped
  have hget : w.fibers.get? f = some y := hy
  cases d with
  | proceed =>
      obtain rfl := Option.some.inj (hget.symm.trans hy')
      rw [hrun] at hp
      cases hp
  | yield =>
      simp only [conclude, hget, snd_park] at hy' ⊢
      obtain rfl := Option.some.inj ((get?_park y n hget).symm.trans hy')
      obtain ⟨rfl, rfl⟩ := Phase.suspended.inj hp
      exact ⟨rfl, Or.inl (queued_self _ ⟨f, y.nextToken⟩ .proceed)⟩
  | await a release =>
      have hthere := get?_park { y with ops := 0 } (n.holding release) hget
      cases hsettled : w.settledProgram? a with
      | some p =>
          simp only [conclude, hget, settledProgram?_park (z := { y with ops := 0 }) hget rfl, hsettled,
            modifyFiber, Store.modify_eq_set _ hthere, Store.get?_set_of_some hthere,
            Option.some.injEq] at hy'
          rw [← hy'] at hp
          cases hp
      | none =>
          rw [conclude_await hget hsettled] at hy' ⊢
          set w₁ := (w.park f { y with ops := 0 } (n.holding release)).1 with hw₁
          obtain ⟨z, hz, heq⟩ := fibers_subscribe hy'
          obtain rfl := Option.some.inj (hthere.symm.trans hz)
          rw [heq] at hp
          obtain ⟨rfl, rfl⟩ := Phase.suspended.inj hp
          have hstill : w₁.settledProgram? a = none := by
            rw [hw₁, settledProgram?_park (z := { y with ops := 0 }) hget rfl, hsettled]
          refine ⟨rfl, Or.inr ⟨a, release, rfl, hsettled, fun hhas =>
            observed_subscribe hstill (has_park.mpr hhas), fun hexiting hterm => ?_⟩⟩
          rw [heq] at hterm
          have htends : Tends .none w₁ (w₁.subscribe ⟨f, y.nextToken⟩ a) := tends_subscribe _ _ a
          exact htends.queued _ _ (terminate_park { y with ops := 0 } _ hexiting hterm)
  | done e =>
      obtain ⟨c, hc, -⟩ := get?_finishFiber_self hget e
      obtain rfl := Option.some.inj (hc.symm.trans hy')
      cases hp

end Fibers.World
