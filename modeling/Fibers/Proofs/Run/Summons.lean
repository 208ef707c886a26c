import Fibers.Proofs.Run.Queue

set_option autoImplicit false

/-! # What a waiting fiber is summoned by

A fiber that waits is resumed by a task that shows its token. What comes into the queue under a token is
a program that tells of what is waited for, or the resumption that ends a fiber whose scope is closing;
that a fiber may go on where it was is said only under a token that it has just got. So a fiber that
waits for one thing stays as it is until it is told of that thing, or until it has to leave its program.
-/

namespace Fibers

variable {σ : Type} {L : Licence} {actor : Option (Key .fiber)} {E : Awaited → Prop} {k : Wake}
  {r : Resume σ}

/-- How a fiber goes on: no token is given out again, and what has started has started for good. -/
structure Fiber.Forth (x x' : Fiber σ) : Prop where
  token : x.nextToken ≤ x'.nextToken
  started : ∀ m, x'.phase = .notStarted m → x.phase = .notStarted m

namespace Fiber

variable {x x' x'' : Fiber σ}

theorem Forth.refl (x : Fiber σ) : x.Forth x := ⟨Nat.le_refl _, fun _ => id⟩

theorem Forth.trans (h : x.Forth x') (h' : x'.Forth x'') : x.Forth x'' :=
  ⟨Nat.le_trans h.token h'.token, fun m hm => h.started m (h'.started m hm)⟩

theorem forth_of_phase (h : x'.phase = x.phase ∧ x'.nextToken = x.nextToken ∨
    ∃ m, x.phase = .notStarted m ∧ x'.phase = .suspended x.nextToken m ∧
      x'.nextToken = x.nextToken + 1) : x.Forth x' := by
  rcases h with ⟨hp, ht⟩ | ⟨_, -, hp, ht⟩
  · exact ⟨Nat.le_of_eq ht.symm, fun m hm => hp ▸ hm⟩
  · refine ⟨Nat.le_of_lt (ht ▸ Nat.lt_succ_self _), fun m hm => ?_⟩
    rw [hp] at hm
    cases hm

theorem Later.forth (h : x.Later x') : x.Forth x' := forth_of_phase h.phase

theorem Waits.forth (h : x.Waits x') : x.Forth x' := forth_of_phase h.phase

/-- What has come as far as this has started. -/
theorem forth_of_ne (ht : x.nextToken ≤ x'.nextToken) (hp : ∀ m, x'.phase ≠ .notStarted m) : x.Forth x' :=
  ⟨ht, fun m hm => absurd hm (hp m)⟩

theorem forth_park (x : Fiber σ) (m : Machine σ) : x.Forth (x.park m).1 := by
  refine forth_of_ne (Nat.le_succ _) fun m' hm => ?_
  cases hm

end Fiber

namespace World

/-- The fiber of `k` is suspended under its token. -/
def Suspended (w : World σ) (k : Wake) : Prop :=
  ∃ y m, w.fibers.get? k.fiber = some y ∧ y.phase = .suspended k.token m

/-- The token of `k` was given out. -/
def Given (w : World σ) (k : Wake) : Prop :=
  ∃ y, w.fibers.get? k.fiber = some y ∧ k.token < y.nextToken

/-- What can come into the queue for `k`: a program, that the fiber has to end because its scope is
closing, or anything at all under a token that was given out meanwhile. -/
inductive Summons (w w' : World σ) (k : Wake) : Resume σ → Prop
  | program {p : Program σ} : Summons w w' k (.program p)
  | warned : w'.Warned k → Summons w w' k .terminate
  | fresh {r : Resume σ} : ¬ w.Suspended k → w'.Given k → Summons w w' k r

theorem Suspended.grows {w w' : World σ} (h : Grows actor w w') (hk : w.Suspended k) :
    w'.Suspended k := by
  obtain ⟨y, m, hy, hphase⟩ := hk
  obtain ⟨y', hy', hlater, -⟩ := h.fibers k.fiber y hy
  rcases hlater.phase with ⟨hp, -⟩ | ⟨m', hp, -, -⟩
  · exact ⟨y', m, hy', hp.trans hphase⟩
  · rw [hphase] at hp
    cases hp

theorem Given.forth {w w' : World σ} (hk : w.Given k)
    (hforth : ∀ y, w.fibers.get? k.fiber = some y →
      ∃ y', w'.fibers.get? k.fiber = some y' ∧ y.Forth y') : w'.Given k := by
  obtain ⟨y, hy, htoken⟩ := hk
  obtain ⟨y', hy', h⟩ := hforth y hy
  exact ⟨y', hy', Nat.lt_of_lt_of_le htoken h.token⟩

theorem Given.grows {w w' : World σ} (h : Grows actor w w') (hk : w.Given k) : w'.Given k :=
  hk.forth fun y hy =>
    let ⟨y', hy', hlater, _⟩ := h.fibers k.fiber y hy
    ⟨y', hy', hlater.forth⟩

theorem Given.subscribe {w : World σ} (hk : w.Given k) (k' : Wake) (a : Awaited) :
    (w.subscribe k' a).Given k := by
  have hgrows : Grows none w (w.subscribe k' a) := grows_subscribe w k' a
  exact hk.grows hgrows

theorem Summons.then {w w₁ w₂ : World σ} (h : Summons w w₁ k r) (hgrows : Grows actor w₁ w₂) :
    Summons w w₂ k r := by
  cases h with
  | program => exact .program
  | warned hk => exact .warned (hk.grows hgrows)
  | fresh hnot hgiven => exact .fresh hnot (hgiven.grows hgrows)

theorem Summons.after {w w₁ w₂ : World σ} (hgrows : Grows actor w w₁) (h : Summons w₁ w₂ k r) :
    Summons w w₂ k r := by
  cases h with
  | program => exact .program
  | warned hk => exact .warned hk
  | fresh hnot hgiven => exact .fresh (fun hk => hnot (hk.grows hgrows)) hgiven

/-! ## Elementary changes -/

theorem queued_startFiber {w : World σ} {f : Key .fiber} (h : (w.startFiber f).Queued k r) :
    w.Queued k r ∨ Summons w (w.startFiber f) k r := by
  unfold startFiber at h ⊢
  cases hget : w.fibers.get? f with
  | none =>
      rw [hget] at h
      exact Or.inl h
  | some y =>
      rw [hget] at h
      dsimp only at h ⊢
      cases hphase : y.phase with
      | running =>
          rw [hphase] at h
          exact Or.inl h
      | suspended t m =>
          rw [hphase] at h
          exact Or.inl h
      | done e =>
          rw [hphase] at h
          exact Or.inl h
      | notStarted m =>
          rw [hphase] at h
          rcases queued_queue h with h | heq
          · exact Or.inl h
          · right
            obtain ⟨g, t⟩ := k
            simp only [Task.resume.injEq] at heq
            obtain ⟨rfl, rfl, -⟩ := heq
            refine .fresh ?_ ⟨(y.park m).1, Store.get?_set_of_some hget, Nat.lt_succ_self _⟩
            rintro ⟨z, n, hz, hp⟩
            obtain rfl := Option.some.inj (hget.symm.trans hz)
            rw [hphase] at hp
            cases hp

theorem Change.queued {w w' : World σ} (h : Change L actor w w') (hq : w'.Queued k r) :
    w.Queued k r ∨ Summons w w' k r := by
  have hprogram : ∀ {w₀ w₁ : World σ}, w₀.Queued k r ∨ (∃ p, r = .program p) →
      w₀.Queued k r ∨ Summons w w₁ k r := by
    rintro w₀ w₁ (hold | ⟨p, rfl⟩)
    · exact Or.inl hold
    · exact Or.inr .program
  have hwarned : ∀ {w₀ w₁ : World σ}, w₀.Queued k r ∨ r = .terminate ∧ w₁.Warned k →
      w₀.Queued k r ∨ Summons w w₁ k r := by
    rintro w₀ w₁ (hold | ⟨rfl, hk⟩)
    · exact Or.inl hold
    · exact Or.inr (.warned hk)
  cases h with
  | elsewhere he => exact hprogram (he.programs k r hq)
  | touch => exact Or.inl hq
  | @contest _ t _ hthere h =>
      clear hthere
      refine hprogram ?_
      induction h with
      | refl => exact Or.inl hq
      | tail _ hstep ih =>
          cases hstep with
          | elsewhere he => exact (he.programs k r hq).elim ih Or.inr
          | touch => exact ih hq
  | own => exact Or.inl hq
  | @enlist c s p services inherited =>
      obtain ⟨x, hnew⟩ : ∃ x : Fiber σ, (w.newFiber c s p services inherited).1 =
          hook { (w.newSemaphore c.concurrency).1 with fibers := (w.fibers.add x).1 } s
            (w.fibers.add x).2 := ⟨_, rfl⟩
      rw [hnew] at hq ⊢
      exact hwarned (queued_hook (w := { (w.newSemaphore c.concurrency).1 with
        fibers := (w.fibers.add x).1 }) hq)
  | launch => exact queued_startFiber hq
  | newScope => exact Or.inl hq
  | @forkScope s owner =>
      exact Or.inl (queued_register (w := (w.newScope owner (w.scope s).strategy).1) (s := s) hq)
  | register => exact Or.inl (queued_register hq)
  | take => exact Or.inl (queued_takeFinalizer hq)
  | lent =>
      unfold takeLent at hq
      split at hq
      · exact Or.inl (queued_takeFinalizer hq)
      · exact Or.inl hq
  | close => exact hwarned (queued_requestClose hq)
  | claim => exact Or.inl hq
  | @publish s e _ =>
      obtain ⟨-, -, -, hserved⟩ := serve_wakes (L := .none) .succeed ((w.scope s).publish e).2
        { w with scopes := w.scopes.set s ((w.scope s).publish e).1 }
      exact hprogram ((hserved k r hq).imp_right fun h => ⟨_, h.2⟩)

theorem Changes.queued {w w' : World σ} (h : Changes L actor w w') (hq : w'.Queued k r) :
    w.Queued k r ∨ Summons w w' k r := by
  induction h with
  | refl => exact Or.inl hq
  | tail hbefore hstep ih =>
      rcases hstep.queued hq with hold | hnew
      · exact (ih hold).imp_right fun h => h.then hstep.grows
      · exact Or.inr (hnew.after (Changes.grows hbefore))

/-! ## The end of a step -/

/-- A fiber that is put aside hears under its new token that it has to end, if it does. -/
theorem queued_park {w : World σ} {f : Key .fiber} {y : Fiber σ} {m : Machine σ}
    (h : (w.park f y m).1.Queued k r) :
    w.Queued k r ∨ k = ⟨f, y.nextToken⟩ ∧ r = .terminate ∧ y.terminating = true := by
  unfold park at h
  dsimp only at h
  split at h
  · rename_i hends
    rcases queued_queue h with h | heq
    · exact Or.inl h
    · simp only [Task.resume.injEq] at heq
      obtain ⟨hfiber, htoken, hresume⟩ := heq
      simp only [Bool.and_eq_true] at hends
      refine Or.inr ⟨?_, hresume.symm, hends.2⟩
      cases k
      simp only [Wake.mk.injEq]
      exact ⟨hfiber.symm, htoken.symm⟩
  · exact Or.inl h

theorem queued_subscribe {w : World σ} {k' : Wake} {a : Awaited} (h : (w.subscribe k' a).Queued k r) :
    w.Queued k r ∨ ∃ p, r = .program p := by
  have hwake : ∀ p, (w.wake k' p).Queued k r → w.Queued k r ∨ ∃ p, r = .program p := fun p hp =>
    (queued_wake hp).imp_right fun hk => ⟨p, hk.2⟩
  cases a with
  | future f =>
      simp only [subscribe, watchFuture] at h
      split at h
      · exact Or.inl h
      · split at h
        · exact hwake _ h
        · exact Or.inl h
  | done f =>
      simp only [subscribe, watchFiber] at h
      split at h
      · exact Or.inl h
      · split at h
        · exact Or.inl h
        · split at h
          · exact hwake _ h
          · exact Or.inl h
  | closed s =>
      simp only [subscribe] at h
      split at h
      · exact Or.inl h
      · exact Or.inl h
  | decided t =>
      simp only [subscribe] at h
      split at h
      · exact Or.inl h
      · exact Or.inl h

theorem queued_notifyDone {f : Key .fiber} {e : AnyExit} {w : World σ} {o : DoneWatcher σ}
    (h : (notifyDone f e w o).Queued k r) : w.Queued k r ∨ ∃ p, r = .program p := by
  by_cases hwake : ∃ k', o = .wake k'
  · obtain ⟨k', rfl⟩ := hwake
    exact (queued_wake h).imp_right fun hk => ⟨_, hk.2⟩
  · exact (elsewhere_notifyDone (L := .none) f e w fun k heq => hwake ⟨k, heq⟩).programs k r h

theorem queued_finishFiber {w : World σ} {f : Key .fiber} {e : AnyExit}
    (h : (w.finishFiber f e).Queued k r) : w.Queued k r ∨ ∃ p, r = .program p := by
  have hserve : ∀ (os : List (DoneWatcher σ)) (w : World σ),
      (os.foldl (notifyDone f e) w).Queued k r → w.Queued k r ∨ ∃ p, r = .program p := by
    intro os
    induction os with
    | nil => exact fun w h => Or.inl h
    | cons o rest ih => exact fun w h => (ih _ h).elim queued_notifyDone Or.inr
  unfold finishFiber at h
  split at h
  · exact Or.inl h
  · split at h
    · exact Or.inl h
    · exact hserve _ (w.modifyFiber f _) h

/-- How a fiber goes forth in a step and its end. -/
theorem forth_conclude {f g : Key .fiber} {stepped : World σ × Stepped σ} {y : Fiber σ}
    (hy : stepped.1.fibers.get? g = some y) :
    ∃ y', (conclude f stepped).world.fibers.get? g = some y' ∧ y.Forth y' := by
  obtain ⟨w, m, d⟩ := stepped
  have hget : w.fibers.get? g = some y := hy
  by_cases hf : g = f
  · subst hf
    cases d with
    | proceed => exact ⟨y, hget, .refl y⟩
    | yield =>
        simp only [conclude, hget]
        exact ⟨_, get?_park y m hget, y.forth_park m⟩
    | await a release =>
        have hpark := get?_park { y with ops := 0 } (m.holding release) hget
        have hforth : y.Forth (({ y with ops := 0 } : Fiber σ).park (m.holding release)).1 := by
          refine Fiber.forth_of_ne (Nat.le_succ _) fun m' hm => ?_
          cases hm
        simp only [conclude, hget]
        split
        · have hgrows : Grows none (w.park g { y with ops := 0 } (m.holding release)).1
              ((w.park g { y with ops := 0 } (m.holding release)).1.subscribe
                ⟨g, (w.park g { y with ops := 0 } (m.holding release)).2⟩ a) := grows_subscribe _ _ a
          obtain ⟨y', hy', hlater, -⟩ := hgrows.fibers g _ hpark
          exact ⟨y', hy', hforth.trans hlater.forth⟩
        · rw [modifyFiber, Store.modify_eq_set _ hpark]
          refine ⟨_, Store.get?_set_of_some hpark, Fiber.forth_of_ne hforth.token fun m' hm => ?_⟩
          cases hm
    | done e =>
        obtain ⟨c, hc, -⟩ := get?_finishFiber_self hget e
        refine ⟨_, hc, Fiber.forth_of_ne (Nat.le_refl _) fun m' hm => ?_⟩
        cases hm
  · obtain ⟨y', hy', -, hwaits⟩ := (onward_conclude f (w, ⟨m, d⟩)).fibers g y hget
    exact ⟨y', hy', (hwaits fun heq => hf (Option.some.inj heq).symm).forth⟩

theorem queued_conclude {f : Key .fiber} {stepped : World σ × Stepped σ} {y : Fiber σ}
    (hy : stepped.1.fibers.get? f = some y) (hrun : y.phase = .running)
    (hq : (conclude f stepped).world.Queued k r) :
    stepped.1.Queued k r ∨ Summons stepped.1 (conclude f stepped).world k r := by
  obtain ⟨w, m, d⟩ := stepped
  have hget : w.fibers.get? f = some y := hy
  have hnot : ¬ w.Suspended ⟨f, y.nextToken⟩ := by
    rintro ⟨z, n, hz, hp⟩
    obtain rfl := Option.some.inj (hget.symm.trans hz)
    rw [hrun] at hp
    cases hp
  have hpark : ∀ z m', z.nextToken = y.nextToken → (w.park f z m').1.Given ⟨f, y.nextToken⟩ :=
    fun z m' hz => ⟨_, get?_park z m' hget, by
      show y.nextToken < z.nextToken + 1
      omega⟩
  cases d with
  | proceed => exact Or.inl hq
  | yield =>
      simp only [conclude, hget] at hq ⊢
      have hgiven : ((w.park f y m).1.queue (.resume f (w.park f y m).2 .proceed)).Given
          ⟨f, y.nextToken⟩ := hpark y m rfl
      rcases queued_queue hq with hq | heq
      · rcases queued_park hq with hold | ⟨rfl, -, -⟩
        · exact Or.inl hold
        · exact Or.inr (.fresh hnot hgiven)
      · rw [snd_park] at heq
        obtain ⟨g, t⟩ := k
        simp only [Task.resume.injEq] at heq
        obtain ⟨rfl, rfl, -⟩ := heq
        exact Or.inr (.fresh hnot hgiven)
  | await a release =>
      simp only [conclude, hget] at hq ⊢
      have hgiven := hpark { y with ops := 0 } (m.holding release) rfl
      cases hsettled : (w.park f { y with ops := 0 } (m.holding release)).1.settledProgram? a with
      | none =>
          simp only [hsettled] at hq ⊢
          rcases queued_subscribe hq with hq | ⟨p, rfl⟩
          · rcases queued_park hq with hold | ⟨rfl, -, -⟩
            · exact Or.inl hold
            · exact Or.inr (.fresh hnot (hgiven.subscribe _ a))
          · exact Or.inr .program
      | some p =>
          simp only [hsettled] at hq ⊢
          rcases queued_park hq with hold | ⟨rfl, -, -⟩
          · exact Or.inl hold
          · obtain ⟨z, hz, hlt⟩ := hgiven
            refine Or.inr (.fresh hnot ?_)
            rw [modifyFiber, Store.modify_eq_set _ hz]
            exact ⟨_, Store.get?_set_of_some hz, hlt⟩
  | done e =>
      rcases queued_finishFiber hq with hold | ⟨p, rfl⟩
      · exact Or.inl hold
      · exact Or.inr .program

end World

/-! ## Moves -/

/-- In the turn of a fiber that runs, its step leaves it running. -/
theorem World.running_step {w : World σ} {f : Key .fiber} {m : Machine σ} {y : Fiber σ}
    (hx : Moment.Lawful ⟨w, some (f, m)⟩) (hy : w.fibers.get? f = some y) (hrun : y.phase = .running) :
    ∃ y', (w.step f y (m.heed y)).1.fibers.get? f = some y' ∧ y'.phase = .running := by
  obtain ⟨y', hy', hlater, -⟩ := (World.step_changes hx y).grows.fibers f y hy
  rcases hlater.phase with ⟨hp, -⟩ | ⟨m', hp, -, -⟩
  · exact ⟨y', hy', hp.trans hrun⟩
  · rw [hrun] at hp
    cases hp

/-- What a move puts in the queue for a fiber. -/
theorem Move.queued {x x' : Moment σ} (h : Move x x') (hx : x.Lawful) (hturned : x.Turned)
    (hq : x'.world.Queued k r) : x.world.Queued k r ∨ World.Summons x.world x'.world k r := by
  obtain ⟨w, active⟩ := x
  cases active with
  | some fm =>
      obtain ⟨f, m⟩ := fm
      obtain ⟨y, hy, hrun⟩ := hturned f m rfl
      have hget : w.fibers.get? f = some y := hy
      cases h with
      | advance =>
          simp only [World.advance, hget] at hq ⊢
          obtain ⟨y', hy', hrun'⟩ := World.running_step hx hget hrun
          have hchanges := World.step_changes hx y
          rcases World.queued_conclude hy' hrun' hq with hq | hnew
          · refine (hchanges.queued hq).imp_right fun hnew => ?_
            cases hnew with
            | program => exact .program
            | fresh hnot hgiven =>
                exact .fresh hnot (hgiven.forth fun z hz => World.forth_conclude hz)
            | warned hk =>
                -- who was told waits, so it is not the fiber whose turn it is
                obtain ⟨z, hz, hterm, n, hp⟩ := hk
                have hne : k.fiber ≠ f := by
                  intro heq
                  rw [heq] at hz
                  obtain rfl := Option.some.inj (hy'.symm.trans hz)
                  rw [hrun'] at hp
                  cases hp
                obtain ⟨z', hz', honward, hwaits⟩ :=
                  (World.onward_conclude f _).fibers k.fiber z hz
                refine .warned ⟨z', hz', honward.terminating hterm, n, ?_⟩
                rcases (hwaits fun heq => hne (Option.some.inj heq).symm).phase with
                  ⟨hsame, -⟩ | ⟨_, hstart, -, -⟩
                · exact hsame.trans hp
                · rw [hp] at hstart
                  cases hstart
          · exact Or.inr (hnew.after hchanges.grows)
  | none =>
      obtain ⟨timers, hlive, ⟨f, token, r', -, rfl⟩ | ⟨w', rfl, hchanges⟩⟩ := World.quiet_cases h
      · obtain ⟨t, ht, htask⟩ := hq
        rw [World.timers_awaken] at ht
        exact Or.inl ⟨t, hlive t ht, htask⟩
      · have hchange := hchanges _ trivial hx.licensed.world
        rcases hchange.queued hq with ⟨t, ht, htask⟩ | hnew
        · exact Or.inl ⟨t, hlive t ht, htask⟩
        · right
          cases hnew with
          | program => exact .program
          | warned hk => exact .warned hk
          | fresh hnot hgiven => exact .fresh hnot hgiven

/-- In every move every fiber goes forth. -/
theorem Move.forth {x x' : Moment σ} (h : Move x x') (hx : x.Lawful) {f : Key .fiber} {y : Fiber σ}
    (hy : x.world.fibers.get? f = some y) : ∃ y', x'.world.fibers.get? f = some y' ∧ y.Forth y' := by
  obtain ⟨w, active⟩ := x
  have hget : w.fibers.get? f = some y := hy
  have hchange : ∀ {actor : Option (Key .fiber)} {w₁ w' : World σ}, w₁.fibers.get? f = some y →
      World.Grows actor w₁ w' → ∃ y', w'.fibers.get? f = some y' ∧ y.Forth y' := by
    intro actor w₁ w' hy₁ hgrows
    obtain ⟨y', hy', hlater, -⟩ := hgrows.fibers f y hy₁
    exact ⟨y', hy', hlater.forth⟩
  cases active with
  | some gm =>
      obtain ⟨g, m⟩ := gm
      cases h with
      | advance =>
          unfold World.advance
          split
          · exact ⟨y, hget, .refl y⟩
          · rename_i z _
            obtain ⟨y₁, hy₁, hforth⟩ := hchange hget (World.step_changes hx z).grows
            obtain ⟨y', hy', hforth'⟩ := World.forth_conclude hy₁
            exact ⟨y', hy', hforth.trans hforth'⟩
  | none =>
      obtain ⟨timers, hlive, ⟨g, token, r', -, rfl⟩ | ⟨w', rfl, hchanges⟩⟩ := World.quiet_cases h
      · rcases World.awaken_cases { w with timers } g token r' with heq | ⟨z, m, c, hz, -, -, -, heq⟩
        · rw [heq]
          exact ⟨y, hget, .refl y⟩
        · rw [heq]
          by_cases hf : g = f
          · subst hf
            obtain rfl := Option.some.inj (hz.symm.trans hget)
            refine ⟨_, Store.get?_set_of_some hget, Fiber.forth_of_ne (Nat.le_refl _) fun m' hm => ?_⟩
            cases hm
          · exact ⟨y, by rw [Store.get?_set, if_neg hf, hget], .refl y⟩
      · have hpresent : ({ w with timers } : World σ).fibers.get? f = some y := hget
        exact hchange hpresent (hchanges _ trivial hx.licensed.world).grows

/-- A fiber that has started has started for good. -/
theorem Run.started (r : Run σ) {j k : Nat} (hjk : j ≤ k) {f : Key .fiber} {y : Fiber σ}
    (hy : (r.moment j).world.fibers.get? f = some y) (hstarted : ∀ m, y.phase ≠ .notStarted m) :
    ∃ y', (r.moment k).world.fibers.get? f = some y' ∧ ∀ m, y'.phase ≠ .notStarted m := by
  induction hjk with
  | refl => exact ⟨y, hy, hstarted⟩
  | @step k _ ih =>
      obtain ⟨y₁, hy₁, hstarted₁⟩ := ih
      obtain ⟨y', hy', hforth⟩ := (r.move k).forth (r.lawful k) hy₁
      exact ⟨y', hy', fun m hm => hstarted₁ m (hforth.started m hm)⟩

/-! ## Addresses -/

/-- Whatever is in the queue, but for programs, shows a token that was given out. -/
def World.Addressed (w : World σ) : Prop :=
  ∀ k r, w.Queued k r → (∃ p, r = .program p) ∨ w.Given k

theorem World.Summons.given {w w' : World σ} (h : Summons w w' k r) (hw' : w'.Attentive) :
    (∃ p, r = .program p) ∨ w'.Given k := by
  cases h with
  | program => exact Or.inl ⟨_, rfl⟩
  | fresh _ hgiven => exact Or.inr hgiven
  | warned hk =>
      obtain ⟨y, hy, -, m, hphase⟩ := hk
      exact Or.inr ⟨y, hy, hw'.issued _ y _ m hy hphase⟩

theorem World.Changes.addressed {w w' : World σ} (h : Changes L actor w w') (hw : w.Attentive)
    (haddressed : w.Addressed) : w'.Addressed := by
  intro k r hq
  rcases h.queued hq with hold | hnew
  · exact (haddressed k r hold).imp_right fun hk => hk.grows (World.Changes.grows h)
  · exact hnew.given (h.attentive hw)

theorem Run.addressed (run : Run σ) (n : Nat) : (run.moment n).world.Addressed := by
  induction n with
  | zero =>
      rintro k r ⟨t, ht, -⟩
      rw [run.timers_start] at ht
      cases ht
  | succ n ih =>
      intro k r hq
      rcases (run.move n).queued (run.lawful n) (run.turned n) hq with hold | hnew
      · exact (ih k r hold).imp_right fun hk => hk.forth fun y hy => (run.move n).forth (run.lawful n) hy
      · exact hnew.given (run.attentive (n + 1))

/-! ## Waiting for one thing -/

/-- The fiber of `k` can hear nothing under its token but of what is of `E`, and that it has to end if
its scope is closing. -/
structure World.Expects (E : Awaited → Prop) (w : World σ) (k : Wake) : Prop where
  untold : w.Untold E k
  proceed : ¬ w.Queued k .proceed
  terminate : w.Queued k .terminate → ∃ y, w.fibers.get? k.fiber = some y ∧ y.terminating = true

/-- Putting a machine aside tells nobody anything but that he has to end. -/
theorem World.untold_park {w : World σ} {f : Key .fiber} {x z : Fiber σ} (m : Machine σ)
    (hk : w.Untold E k) (hx : w.fibers.get? f = some x) (hz : z.done = x.done) :
    (w.park f z m).1.Untold E k := by
  have hset : World.Untold E { w with fibers := w.fibers.set f (z.park m).1 } k :=
    untold_set_fiber hk (fun hE o ho => hk.fibers f x hx hE o (hz ▸ ho)) fun y hy o ho => by
      obtain rfl := Option.some.inj (hx.symm.trans hy)
      exact hz ▸ ho
  unfold park
  dsimp only
  split
  · refine untold_queue hset fun p heq => ?_
    cases (Task.resume.inj heq).2.2
  · exact hset

/-- A fiber that is put aside to wait for something expects that. -/
theorem World.expects_subscribe {w : World σ} {f : Key .fiber} {y : Fiber σ} {m : Machine σ} {a : Awaited}
    (hw : w.Attentive) (haddressed : w.Addressed) (hy : w.fibers.get? f = some y) :
    World.Expects (· = a) ((w.park f { y with ops := 0 } m).1.subscribe ⟨f, y.nextToken⟩ a)
      ⟨f, y.nextToken⟩ := by
  have hfresh : ∀ z, w.fibers.get? f = some z → z.nextToken ≤ y.nextToken := by
    intro z hz
    obtain rfl := Option.some.inj (hy.symm.trans hz)
    exact Nat.le_refl _
  -- under the new token the queue has nothing but what is put there now
  have hqueued : ∀ r, ((w.park f { y with ops := 0 } m).1.subscribe ⟨f, y.nextToken⟩ a).Queued
      ⟨f, y.nextToken⟩ r → (∃ p, r = .program p) ∨ r = .terminate ∧ y.terminating = true := by
    intro r hq
    rcases queued_subscribe hq with hq | hprogram
    · rcases queued_park hq with hold | ⟨-, hr, hterm⟩
      · rcases haddressed _ _ hold with hprogram | ⟨z, hz, hlt⟩
        · exact Or.inl hprogram
        · exact absurd hlt (Nat.not_lt.mpr (hfresh z hz))
      · exact Or.inr ⟨hr, hterm⟩
    · exact Or.inl hprogram
  refine ⟨?_, fun hq => ?_, fun hq => ?_⟩
  · have hnone : w.Untold (· = a) ⟨f, y.nextToken⟩ :=
      (hw.fresh f y.nextToken hfresh).weaken fun _ => False.elim
    exact untold_subscribe (untold_park m hnone hy rfl) (Or.inr rfl)
  · rcases hqueued _ hq with ⟨p, hp⟩ | ⟨hr, -⟩
    · cases hp
    · cases hr
  · rcases hqueued _ hq with ⟨p, hp⟩ | ⟨-, hterm⟩
    · cases hp
    · have hgrows : World.Grows none (w.park f { y with ops := 0 } m).1
          ((w.park f { y with ops := 0 } m).1.subscribe ⟨f, y.nextToken⟩ a) := grows_subscribe _ _ a
      obtain ⟨z, hz, hlater, -⟩ := hgrows.fibers f _ (get?_park _ m hy)
      exact ⟨z, hz, hlater.terminating hterm⟩

/-- Who is not the fiber of `k` lets it be told of nothing else in a step. -/
theorem World.untold_conclude {f : Key .fiber} {stepped : World σ × Stepped σ} (hf : k.fiber ≠ f)
    (hk : stepped.1.Untold E k) : (conclude f stepped).world.Untold E k := by
  obtain ⟨w, m, d⟩ := stepped
  have huntold : w.Untold E k := hk
  have hother : ∀ t, k ≠ ⟨f, t⟩ := fun t heq => hf (congrArg Wake.fiber heq)
  cases d with
  | proceed => exact huntold
  | yield =>
      simp only [conclude]
      cases hget : w.fibers.get? f with
      | none => exact huntold
      | some x =>
          refine untold_queue (untold_park m huntold hget rfl) fun p heq => ?_
          cases (Task.resume.inj heq).2.2
  | await a release =>
      simp only [conclude]
      cases hget : w.fibers.get? f with
      | none => exact huntold
      | some x =>
          dsimp only
          have hparked := untold_park (z := { x with ops := 0 }) (m.holding release) huntold hget rfl
          split
          · rw [snd_park]
            exact untold_subscribe hparked (Or.inl (hother _))
          · have hthere := get?_park { x with ops := 0 } (m.holding release) hget
            rw [modifyFiber, Store.modify_eq_set _ hthere]
            refine untold_set_fiber hparked (fun hE o ho => hparked.fibers f _ hthere hE o ho)
              fun y hy o ho => ?_
            obtain rfl := Option.some.inj (hthere.symm.trans hy)
            exact ho
  | done e => exact untold_finishFiber huntold f e

section

variable {x x' : Moment σ} {y : Fiber σ} {m : Machine σ}

/-- A fiber that waits goes on to wait, is told of what it waits for, or has to leave its program. -/
inductive Moment.Stirs (E : Awaited → Prop) (k : Wake) (y : Fiber σ) (m : Machine σ) (x x' : Moment σ) :
    Prop
  | waits {y' : Fiber σ} : x'.world.fibers.get? k.fiber = some y' →
      y'.phase = .suspended k.token m → y.Aside y' → y.Onward y' →
      (∀ m', x'.active ≠ some (k.fiber, m')) → x'.world.Expects E k → Stirs E k y m x x'
  | told {a : Awaited} {p : Program σ} : E a → x.world.Tells a p →
      x'.active = some (k.fiber, { m with control := .instruct p }) → Stirs E k y m x x'
  | ends : m.exiting = false → y.mustLeave = true →
      x'.world.fibers.get? k.fiber = some { y with phase := .running } →
      x'.active = some (k.fiber, m) → Stirs E k y m x x'

/-- A fiber that is suspended under a token hears the tasks that show it, but not that it has to end
while it is masked or on its way out. -/
theorem World.awaken_suspended {w : World σ} {f : Key .fiber} {token : Nat}
    (hy : w.fibers.get? f = some y) (hphase : y.phase = .suspended token m) (r : Resume σ) :
    w.awaken f token r =
      let running : World σ := { w with fibers := w.fibers.set f { y with phase := .running } }
      match r with
      | .proceed => ⟨running, some (f, m)⟩
      | .program p => ⟨running, some (f, { m with control := .instruct p })⟩
      | .terminate => if m.exiting || !y.interruptible then ⟨w, none⟩ else ⟨running, some (f, m)⟩ := by
  have hrunning : (w.modifyFiber f fun fiber => { fiber with phase := .running }) =
      { w with fibers := w.fibers.set f { y with phase := .running } } := by
    rw [World.modifyFiber, Store.modify_eq_set _ hy]
  unfold World.awaken
  rw [hy, ← hrunning]
  dsimp only
  rw [hphase]
  exact if_neg fun hne => hne rfl

/-- Nothing else comes into the queue for a fiber that waits for one thing. -/
theorem Move.expects (h : Move x x') (hx : x.Lawful) (hturned : x.Turned)
    (hsuspended : x.world.Suspended k) (hexpects : x.world.Expects E k)
    (huntold : x'.world.Untold E k) : x'.world.Expects E k := by
  have hqueued : ∀ r, x'.world.Queued k r → x.world.Queued k r ∨ (∃ p, r = .program p) ∨
      r = .terminate ∧ x'.world.Warned k := by
    intro r hq
    rcases h.queued hx hturned hq with hold | hnew
    · exact Or.inl hold
    · cases hnew with
      | program => exact Or.inr (Or.inl ⟨_, rfl⟩)
      | warned hk => exact Or.inr (Or.inr ⟨rfl, hk⟩)
      | fresh hnot => exact absurd hsuspended hnot
  refine ⟨huntold, fun hq => ?_, fun hq => ?_⟩
  · rcases hqueued _ hq with hold | ⟨p, hp⟩ | ⟨hr, -⟩
    · exact hexpects.proceed hold
    · cases hp
    · cases hr
  · rcases hqueued _ hq with hold | ⟨p, hp⟩ | ⟨-, z, hz, hterm, -⟩
    · obtain ⟨z, hz, hterm⟩ := hexpects.terminate hold
      obtain ⟨actor, honward⟩ := h.onward hx
      obtain ⟨z', hz', hlater, -⟩ := honward.fibers k.fiber z hz
      exact ⟨z', hz', hlater.terminating hterm⟩
    · cases hp
    · exact ⟨z, hz, hterm⟩

/-- A resumption, of the fiber itself or of another. -/
theorem World.stirs_awaken {w : World σ} {timers : Timers (Task σ)} {g : Key .fiber} {token : Nat}
    (hlive : ∀ u ∈ timers.live, u ∈ w.timers.live) (hy : w.fibers.get? k.fiber = some y)
    (hphase : y.phase = .suspended k.token m) (hexpects : w.Expects E k)
    (hq : w.Queued ⟨g, token⟩ r)
    (hlater : (World.awaken { w with timers } g token r).world.Untold E k →
      (World.awaken { w with timers } g token r).world.Expects E k) :
    Moment.Stirs E k y m ⟨w, none⟩ (World.awaken { w with timers } g token r) := by
  have huntold : World.Untold E { w with timers } k := World.untold_timers hexpects.untold hlive
  have hpresent : ({ w with timers } : World σ).fibers.get? k.fiber = some y := hy
  have hstill : World.awaken { w with timers } g token r = ⟨{ w with timers }, none⟩ →
      Moment.Stirs E k y m ⟨w, none⟩ (World.awaken { w with timers } g token r) := by
    intro heq
    rw [heq] at hlater ⊢
    exact .waits hpresent hphase (.refl y) (.refl y) nofun (hlater huntold)
  by_cases hk : k = ⟨g, token⟩
  · obtain rfl : g = k.fiber := by rw [hk]
    obtain rfl : token = k.token := by rw [hk]
    have hawaken := World.awaken_suspended hpresent hphase r
    cases r with
    | proceed => exact absurd hq hexpects.proceed
    | program p =>
        obtain ⟨a, ha, htells⟩ := hexpects.untold.queue p hq
        rw [hawaken]
        exact .told ha htells rfl
    | terminate =>
        obtain ⟨z, hz, hterm⟩ := hexpects.terminate hq
        obtain rfl := Option.some.inj (hy.symm.trans hz)
        by_cases hdeaf : (m.exiting || !y.interruptible) = true
        · exact hstill (hawaken.trans (if_pos hdeaf))
        · rw [hawaken.trans (if_neg hdeaf)]
          simp only [Bool.or_eq_true, Bool.not_eq_true', not_or, Bool.not_eq_true,
            Bool.not_eq_false] at hdeaf
          exact .ends hdeaf.1 (by rw [Fiber.mustLeave, hterm, hdeaf.2]; rfl)
            (Store.get?_set_of_some hpresent) rfl
  · rcases World.awaken_cases { w with timers } g token r with heq | ⟨z, n, c, hz, hp, -, -, heq⟩
    · exact hstill heq
    · have hne : k.fiber ≠ g := by
        rintro rfl
        obtain rfl := Option.some.inj (hz.symm.trans hy)
        rw [hp] at hphase
        cases hphase
        exact hk rfl
      have hother : (w.fibers.set g { z with phase := .running }).get? k.fiber = some y := by
        rw [Store.get?_set, if_neg hne.symm, hy]
      rw [heq] at hlater ⊢
      refine .waits hother hphase (.refl y) (.refl y) (fun m' hactive => ?_) (hlater ?_)
      · injection hactive with hactive
        injection hactive with hactive
        exact hne hactive.symm
      · exact World.untold_set_fiber huntold (fun hE o ho => huntold.fibers g z hz hE o ho)
          fun v hv o ho => by
            obtain rfl := Option.some.inj (hz.symm.trans hv)
            exact ho

/-- In every move but its own, a fiber that waits for one thing waits on, is told of it, or ends. -/
theorem Move.stirs (h : Move x x') (hx : x.Lawful) (hturned : x.Turned)
    (haside : ∀ m', x.active ≠ some (k.fiber, m')) (hy : x.world.fibers.get? k.fiber = some y)
    (hphase : y.phase = .suspended k.token m) (hexpects : x.world.Expects E k) :
    x.Stirs E k y m x' := by
  have hlater := h.expects hx hturned ⟨y, m, hy, hphase⟩ hexpects
  have hstays : ∀ y', y.Waits y' → y'.phase = .suspended k.token m := by
    intro y' hwaits
    rcases hwaits.phase with ⟨hsame, -⟩ | ⟨_, hstart, -, -⟩
    · exact hsame.trans hphase
    · rw [hphase] at hstart
      cases hstart
  obtain ⟨w, active⟩ := x
  have hget : w.fibers.get? k.fiber = some y := hy
  cases active with
  | some gm =>
      obtain ⟨g, n⟩ := gm
      have hne : k.fiber ≠ g := fun heq => haside n (by rw [heq])
      cases h with
      | advance =>
          obtain ⟨y', hy', honward, hwaits⟩ := (World.advance_lawful hx).2.fibers k.fiber y hget
          have hwait : y.Waits y' := hwaits fun heq => hne (Option.some.inj heq).symm
          have huntold : (w.advance g n).world.Untold E k := by
            unfold World.advance
            split
            · exact hexpects.untold
            · rename_i z _
              exact World.untold_conclude hne ((World.step_changes hx z).untold hexpects.untold)
          refine .waits hy' (hstays y' hwait) hwait.aside honward (fun m' heq => ?_) (hlater huntold)
          rcases World.active_advance w g n with hnone | ⟨n', hsome⟩
          · rw [hnone] at heq
            cases heq
          · rw [hsome] at heq
            injection heq with heq
            injection heq with heq
            exact hne heq.symm
  | none =>
      obtain ⟨timers, hlive, ⟨g, token, r, hq, rfl⟩ | ⟨w', rfl, hchanges⟩⟩ := World.quiet_cases h
      · exact World.stirs_awaken hlive hget hphase hexpects hq hlater
      · obtain ⟨-, honward⟩ := World.quiet_of_changes hx hlive hchanges
        obtain ⟨y', hy', honward', hwaits⟩ := honward.fibers k.fiber y hget
        have hwait : y.Waits y' := hwaits fun heq => by cases heq
        have huntold : World.Untold E w' k :=
          (hchanges _ trivial hx.licensed.world).untold (World.untold_timers hexpects.untold hlive)
        exact .waits hy' (hstays y' hwait) hwait.aside honward' nofun (hlater huntold)

end

end Fibers
