import Fibers.Proofs.Suspensions.Keeping

set_option autoImplicit false

/-! # No wake-up is lost

A fiber that is suspended has a task in the queue that lets it go on, or it is an observer of what it waits
for, which has not happened (`Run.Wakeful`). There are two exceptions, and no others (`Run.Lost`): a text
dropped its wake-up from the observers of the future, under a number that belonged to somebody else, or it
waits for something that was never there. A token is given out once, and a task that shows an old one
does nothing.
-/

namespace Fibers

variable {σ : Type} {k : Wake}

namespace World

variable {w : World σ} {a : Awaited}

/-! ## What is there -/

/-- Who comes to wait for something does not bring it about. -/
theorem Has.of_subscribe (h : (w.subscribe k a).Has a) : w.Has a := by
  cases a with
  | future f =>
      simp only [subscribe, watchFuture] at h
      cases hcell : (w.future f).attach? (.wake k) with
      | none =>
          rw [hcell] at h
          dsimp only at h
          split at h
          · exact h
          · exact h
      | some c =>
          rw [hcell] at h
          simp only [Has, Store.get?_set, if_pos, Option.isSome_map] at h
          exact h
  | done f =>
      simp only [subscribe, watchFiber] at h
      cases hget : w.fibers.get? f with
      | none =>
          rw [hget] at h
          exact h
      | some x => exact Option.isSome_of_eq_some hget
  | closed s =>
      simp only [subscribe] at h
      split at h
      · simp only [Has, Store.get?_set, if_pos, Option.isSome_map] at h
        exact h
      · exact h
  | decided t =>
      simp only [subscribe] at h
      split at h
      · simp only [Has, Store.get?_set, if_pos, Option.isSome_map] at h
        exact h
      · exact h

theorem Observed.has (h : w.Observed k a) : w.Has a := by
  cases a with
  | future f =>
      obtain ⟨_, hc, -⟩ := h
      exact Option.isSome_of_eq_some hc
  | done f =>
      obtain ⟨_, hc, -⟩ := h
      exact Option.isSome_of_eq_some hc
  | closed s =>
      obtain ⟨_, hc, -⟩ := h
      exact Option.isSome_of_eq_some hc
  | decided t =>
      obtain ⟨_, hc, -⟩ := h
      exact Option.isSome_of_eq_some hc

theorem Tells.has {p : Program σ} (h : w.Tells a p) : w.Has a := by
  cases a with
  | future f =>
      obtain ⟨_, hc, -⟩ := h
      exact Option.isSome_of_eq_some hc
  | done f =>
      obtain ⟨_, _, hc, -⟩ := h
      exact Option.isSome_of_eq_some hc
  | closed s =>
      obtain ⟨_, _, hc, -⟩ := h
      exact Option.isSome_of_eq_some hc
  | decided t =>
      obtain ⟨_, _, hc, -⟩ := h
      exact Option.isSome_of_eq_some hc

/-- What has observers has not happened. -/
theorem settledProgram?_of_observed (h : w.Observed k a) : w.settledProgram? a = none := by
  have hpending : ∀ {α ω : Type} {c : Cell α ω} {o : Nat × ω}, o ∈ c.observers → c.outcome? = none := by
    intro α ω c o ho
    cases c with
    | pending os n => rfl
    | settled outcome => cases ho
  cases a with
  | future f =>
      obtain ⟨c, hc, o, ho, -⟩ := h
      simp only [settledProgram?, future, hc, Option.getD_some, hpending ho, Option.map_none]
  | done f =>
      obtain ⟨x, hx, o, ho, -⟩ := h
      simp only [settledProgram?, hx, Option.bind_some, Fiber.exit?, hpending ho, Option.map_none]
  | closed s =>
      obtain ⟨sc, hsc, o, ho, -⟩ := h
      simp only [settledProgram?, scope_of_get hsc, hpending ho]
  | decided t =>
      obtain ⟨tally, ht, o, ho, -⟩ := h
      simp only [settledProgram?, World.tally, ht, Option.getD_some, hpending ho]

/-- A fiber that expects one thing is an observer of nothing else. -/
theorem Untold.eq_of_observed {E : Awaited → Prop} (hk : w.Untold E k) (h : w.Observed k a) : E a := by
  by_contra hE
  cases a with
  | future f =>
      obtain ⟨c, hc, o, ho, hok⟩ := h
      exact hk.unobserved.futures f c hc hE o ho hok
  | done f =>
      obtain ⟨x, hx, o, ho, hok⟩ := h
      exact hk.fibers f x hx hE o ho hok
  | closed s =>
      obtain ⟨sc, hsc, o, ho, hok⟩ := h
      exact hk.scopes s sc hsc hE o ho hok
  | decided t =>
      obtain ⟨tally, ht, o, ho, hok⟩ := h
      exact hk.unobserved.tallies t tally ht hE o ho hok

/-- A resumption under a token that the fiber is not suspended under changes nothing. -/
theorem begin_stale (hk : ¬ w.Suspended k) (resume : Resume σ) :
    w.begin (.resume k.fiber k.token resume) = ⟨w, none⟩ := by
  rcases awaken_cases w k.fiber k.token resume with heq | ⟨y, m, -, hy, hphase, -⟩
  · exact heq
  · exact absurd ⟨y, m, hy, hphase⟩ hk

/-- An observer's token was given out. -/
theorem Attentive.given (hw : w.Attentive) (h : w.Observed k a) : w.Given k := by
  by_contra hnot
  have huntold := hw.fresh k.fiber k.token fun y hy => Nat.le_of_not_lt fun hlt => hnot ⟨y, hy, hlt⟩
  exact huntold.eq_of_observed h

/-- A fiber that expects one thing, is no observer of it and has no task in the queue will hear nothing. -/
theorem Expects.forsaken (h : w.Expects (· = a) k) (hobserved : ¬ w.Observed k a) (hwoken : ¬ w.Woken k) :
    w.Expects (fun _ => False) k := by
  refine ⟨⟨⟨fun f c hc _ o ho hok => ?_, fun t tally ht _ o ho hok => ?_⟩, fun f x hx _ o ho hok => ?_,
    fun s sc hsc _ o ho hok => ?_, fun p hp => absurd (Or.inr ⟨p, hp⟩) hwoken⟩, h.proceed, h.terminate⟩
  · have hk : w.Observed k (.future f) := ⟨c, hc, o, ho, hok⟩
    exact hobserved (h.untold.eq_of_observed hk ▸ hk)
  · have hk : w.Observed k (.decided t) := ⟨tally, ht, o, ho, hok⟩
    exact hobserved (h.untold.eq_of_observed hk ▸ hk)
  · have hk : w.Observed k (.done f) := ⟨x, hx, o, ho, hok⟩
    exact hobserved (h.untold.eq_of_observed hk ▸ hk)
  · have hk : w.Observed k (.closed s) := ⟨sc, hsc, o, ho, hok⟩
    exact hobserved (h.untold.eq_of_observed hk ▸ hk)

end World

/-! ## Tokens -/

/-- A token under which a fiber comes to be suspended has not been given out before. -/
theorem Move.fresh {x x' : Moment σ} (h : Move x x') (hx : x.Lawful) (hturned : x.Turned)
    (hk' : x'.world.Suspended k) : x.world.Suspended k ∨ ¬ x.world.Given k := by
  obtain ⟨y', m, hy', hphase⟩ := hk'
  -- a fiber that does not move itself was suspended before, or it is started
  have haside : ∀ y, x.world.fibers.get? k.fiber = some y → y.Waits y' →
      x.world.Suspended k ∨ ¬ x.world.Given k := by
    intro y hy hwaits
    rcases hwaits.phase with ⟨hp, -⟩ | ⟨_, -, hp, -⟩
    · exact Or.inl ⟨y, m, hy, hp.symm.trans hphase⟩
    · refine Or.inr ?_
      rintro ⟨z, hz, hlt⟩
      obtain rfl := Option.some.inj (hy.symm.trans hz)
      rw [hp] at hphase
      obtain ⟨htoken, -⟩ := Phase.suspended.inj hphase
      omega
  have hnew : x.world.fibers.get? k.fiber = none → ¬ x.world.Given k := by
    rintro hnone ⟨z, hz, -⟩
    rw [hnone] at hz
    cases hz
  obtain ⟨w, active⟩ := x
  cases active with
  | some fn =>
      obtain ⟨f, n⟩ := fn
      obtain ⟨z, hz, hrun⟩ := hturned f n rfl
      have hget : w.fibers.get? f = some z := hz
      cases h with
      | advance =>
          by_cases hf : f = k.fiber
          · subst hf
            simp only [World.advance, hget] at hy'
            obtain ⟨z₁, hz₁, hlater, -⟩ := (World.step_changes hx z).grows.fibers _ z hget
            rcases hlater.phase with ⟨hp, ht⟩ | ⟨_, hp, -, -⟩
            · obtain ⟨htoken, -⟩ := World.suspended_conclude hz₁ (hp.trans hrun) hy' hphase
              refine Or.inr ?_
              rintro ⟨v, hv, hlt⟩
              obtain rfl := Option.some.inj (hz.symm.trans hv)
              omega
            · rw [hrun] at hp
              cases hp
          · cases hy : w.fibers.get? k.fiber with
            | none => exact Or.inr (hnew hy)
            | some y =>
                obtain ⟨y₁, hy₁, -, hwaits⟩ := (World.advance_lawful hx).2.fibers k.fiber y hy
                obtain rfl := Option.some.inj (hy₁.symm.trans hy')
                exact haside y hy (hwaits fun heq => hf (Option.some.inj heq))
  | none =>
      cases hy : w.fibers.get? k.fiber with
      | none => exact Or.inr (hnew hy)
      | some y =>
          obtain ⟨timers, hlive, ⟨g, token, r', -, rfl⟩ | ⟨w', rfl, hchanges⟩⟩ := World.quiet_cases h
          · rcases World.awaken_cases { w with timers } g token r' with heq | ⟨z, n, c, hz, -, -, -, heq⟩
            · rw [heq] at hy'
              exact Or.inl ⟨y', m, hy', hphase⟩
            · rw [heq] at hy'
              by_cases hg : g = k.fiber
              · subst hg
                rw [Store.get?_set_of_some hz] at hy'
                cases hy'
                cases hphase
              · rw [Store.get?_set, if_neg hg] at hy'
                exact Or.inl ⟨y', m, hy', hphase⟩
          · obtain ⟨-, honward⟩ := World.quiet_of_changes hx hlive hchanges
            obtain ⟨y₁, hy₁, -, hwaits⟩ := honward.fibers k.fiber y hy
            obtain rfl := Option.some.inj (hy₁.symm.trans hy')
            exact haside y hy (hwaits fun h => by cases h)

namespace Run

variable {r : Run σ} {j n : Nat} {a : Awaited}

theorem given (r : Run σ) (hjn : j ≤ n) (hk : (r.moment j).world.Given k) :
    (r.moment n).world.Given k := by
  induction hjn with
  | refl => exact hk
  | step _ ih => exact ih.forth fun y hy => (r.move _).forth (r.lawful _) hy

theorem given_of_suspended (r : Run σ) (hk : (r.moment n).world.Suspended k) :
    (r.moment n).world.Given k := by
  obtain ⟨y, m, hy, hphase⟩ := hk
  exact ⟨y, hy, (r.attentive n).issued _ y _ m hy hphase⟩

/-- A fiber that is suspended under a token has been so ever since the token was given out. -/
theorem suspended_since (r : Run σ) (hjn : j ≤ n) (hgiven : (r.moment j).world.Given k)
    (hk : (r.moment n).world.Suspended k) : (r.moment j).world.Suspended k := by
  induction hjn with
  | refl => exact hk
  | @step n hjn ih =>
      rcases (r.move n).fresh (r.lawful n) (r.turned n) hk with hbefore | hnot
      · exact ih hbefore
      · exact absurd (r.given hjn hgiven) hnot

/-- A fiber that is suspended again is so under a greater token. -/
theorem token_lt (r : Run σ) {f : Key .fiber} {t t' i : Nat} (hij : i ≤ j) (hjn : j ≤ n)
    (hi : (r.moment i).world.Suspended ⟨f, t⟩) (hj : ¬ (r.moment j).world.Suspended ⟨f, t⟩)
    (hn : (r.moment n).world.Suspended ⟨f, t'⟩) : t < t' := by
  by_contra hle
  obtain ⟨y, hy, hlt⟩ := r.given_of_suspended hi
  have hearlier : (r.moment i).world.Given ⟨f, t'⟩ := ⟨y, hy, Nat.lt_of_le_of_lt (Nat.le_of_not_lt hle) hlt⟩
  obtain ⟨z, m, hz, hphase⟩ := r.suspended_since (Nat.le_trans hij hjn) hearlier hn
  obtain ⟨v, m', hv, hphase'⟩ := hi
  obtain rfl := Option.some.inj (hz.symm.trans hv)
  rw [hphase] at hphase'
  obtain ⟨rfl, -⟩ := Phase.suspended.inj hphase'
  exact hj (r.suspended_since hjn (r.given hij hearlier) hn)

/-! ## Waiting -/

/-- Until the moment `n` the fiber of `k` has lost what was to wake it: a move that drops observers dropped
it from those of the future it waits for, or it came to wait for something that is not there. -/
inductive Lost (r : Run σ) (n : Nat) (k : Wake) : Prop
  | severed {j : Nat} {f : Key .future} : j < n → (r.moment j).world.Observed k (.future f) →
      ¬ (r.moment (j + 1)).world.Observed k (.future f) → ¬ (r.moment (j + 1)).world.Woken k →
      Moment.Forgets (r.moment j) (r.moment (j + 1)) → Lost r n k
  | missed {j : Nat} {a : Awaited} : j < n → (r.moment j).Misses k a → Lost r n k

/-- The fiber of `k` waits for `a`. It is an observer of it, or it was and a task is in the queue for it,
unless its wake-up is lost. -/
structure Listens (r : Run σ) (n : Nat) (k : Wake) (a : Awaited) : Prop where
  since : ∃ j < n, (r.moment j).Awaits k a
  heard : (r.moment n).world.Woken k ∨ (r.moment n).world.Observed k a ∨ r.Lost n k

theorem Lost.mono (h : r.Lost j k) (hjn : j ≤ n) : r.Lost n k := by
  cases h with
  | severed hi hk hunobserved hunwoken hforgets =>
      exact .severed (Nat.lt_of_lt_of_le hi hjn) hk hunobserved hunwoken hforgets
  | missed hi hk => exact .missed (Nat.lt_of_lt_of_le hi hjn) hk

/-- The moment after a fiber has come to wait for something. -/
theorem awaits_next (h : (r.moment n).Awaits k a) : ∃ (w : World σ) (y : Fiber σ) (m : Machine σ),
    w.Attentive ∧ w.Addressed ∧ w.fibers.get? k.fiber = some y ∧ y.nextToken = k.token ∧
      ((r.moment n).Misses k a → ¬ w.Has a) ∧
      r.moment (n + 1) = ⟨(w.park k.fiber { y with ops := 0 } m).1.subscribe k a, none⟩ := by
  obtain ⟨m, y, w, m', release, hactive, hy, htoken, hstep, hnone⟩ := h
  have hchanges := World.step_changes (r.lawful_of_turn hactive) y
  have hattentive := hchanges.attentive (r.attentive n)
  have haddressed := World.Changes.addressed hchanges (r.attentive n) (r.addressed n)
  obtain ⟨y₁, hy₁, hlater, -⟩ := hchanges.grows.fibers k.fiber y hy
  rw [hstep] at hattentive haddressed hy₁
  obtain ⟨z, hz, hrun⟩ := r.turned n k.fiber m hactive
  obtain rfl := Option.some.inj (hy.symm.trans hz)
  have htoken₁ : y₁.nextToken = k.token := by
    rcases hlater.phase with ⟨-, ht⟩ | ⟨_, hp, -, -⟩
    · exact ht.trans htoken
    · rw [hrun] at hp
      cases hp
  have hmisses : (r.moment n).Misses k a → ¬ w.Has a := by
    rintro ⟨-, hnot, m₀, hactive₀, hwait⟩
    obtain rfl := congrArg Prod.snd (Option.some.inj (hactive₀.symm.trans hactive))
    have hheed : (m₀.heed y).control = .instruct (.wait a) ∨ (m₀.heed y).control = .leave none := by
      unfold Machine.heed
      split
      · exact Or.inr rfl
      · exact Or.inl hwait
    rcases (World.step_await hstep).2 with ⟨-, rfl⟩ | ⟨reg, hasync, -⟩
    · exact fun hhas => hnot (World.has_count.mp hhas)
    · rw [hasync] at hheed
      rcases hheed with h | h
      · cases h
      · cases h
  refine ⟨w, y₁, m'.holding release, hattentive, haddressed, hy₁, htoken₁, hmisses, ?_⟩
  rw [Run.conclude_of_turn hactive hy, hstep, World.conclude_await hy₁ hnone, htoken₁]

theorem expects_next (h : (r.moment n).Awaits k a) : (r.moment (n + 1)).world.Expects (· = a) k := by
  obtain ⟨f, t⟩ := k
  obtain ⟨w, y, m, hattentive, haddressed, hy, rfl, -, hnext⟩ := awaits_next h
  rw [hnext]
  exact World.expects_subscribe hattentive haddressed hy

/-- A fiber that is suspended in a move of somebody else's goes on to expect what it expects. -/
theorem expects_succ {E : Awaited → Prop} (hk : (r.moment n).world.Suspended k)
    (hk' : (r.moment (n + 1)).world.Suspended k) (hexpects : (r.moment n).world.Expects E k) :
    (r.moment (n + 1)).world.Expects E k := by
  obtain ⟨y, m, hy, hphase⟩ := hk
  obtain ⟨y', m', hy', hphase'⟩ := hk'
  -- it has not the turn, neither before nor after
  have haside : ∀ n', (r.moment n).active ≠ some (k.fiber, n') := by
    intro n' hactive
    obtain ⟨z, hz, hrun⟩ := r.turned n k.fiber n' hactive
    obtain rfl := Option.some.inj (hy.symm.trans hz)
    rw [hphase] at hrun
    cases hrun
  have hstays : ∀ n', (r.moment (n + 1)).active ≠ some (k.fiber, n') := by
    intro n' hactive
    obtain ⟨z, hz, hrun⟩ := r.turned (n + 1) k.fiber n' hactive
    obtain rfl := Option.some.inj (hy'.symm.trans hz)
    rw [hphase'] at hrun
    cases hrun
  cases (r.move n).stirs (r.lawful n) (r.turned n) haside hy hphase hexpects with
  | waits _ _ _ _ _ hexpects' => exact hexpects'
  | told _ _ hactive => exact absurd hactive (hstays _)
  | ends _ _ _ hactive => exact absurd hactive (hstays _)

theorem given_next (h : (r.moment n).Awaits k a) : (r.moment (n + 1)).world.Given k := by
  obtain ⟨f, t⟩ := k
  obtain ⟨w, y, m, -, -, hy, rfl, -, hnext⟩ := awaits_next h
  have hparked : (w.park f { y with ops := 0 } m).1.Given ⟨f, y.nextToken⟩ :=
    ⟨_, World.get?_park _ _ hy, Nat.lt_succ_self _⟩
  rw [hnext]
  exact hparked.subscribe _ _

/-- A fiber that has come to wait for something expects that as long as it is suspended. -/
theorem expects_of_awaits (hjn : j < n) (h : (r.moment j).Awaits k a)
    (hk : (r.moment n).world.Suspended k) : (r.moment n).world.Expects (· = a) k := by
  induction hjn with
  | refl => exact expects_next h
  | @step n hjn ih =>
      have hbefore := r.suspended_since (Nat.le_succ n) (r.given hjn (given_next h)) hk
      exact expects_succ hbefore hk (ih hbefore)

/-- A fiber that is suspended is let go on by a task, or it waits for something. -/
theorem Exact.listens (hr : r.Exact) (hk : (r.moment n).world.Suspended k) :
    (r.moment n).world.Queued k .proceed ∨ ∃ a, r.Listens n k a := by
  induction n with
  | zero =>
      obtain ⟨y, m, hy, -⟩ := hk
      rw [r.start] at hy
      cases hy
  | succ n ih =>
      obtain ⟨y', m, hy', hphase⟩ := hk
      rcases (r.move n).onset (r.lawful n) (r.turned n) hy' hphase with
        hproceed | ⟨y, hy, hrests⟩ | ⟨a, hawaits, hobserved, -⟩
      · exact Or.inl hproceed
      · have hphase₀ : y.phase = .suspended k.token m := hrests.phase ▸ hphase
        have hbefore : (r.moment n).world.Suspended k := ⟨y, m, hy, hphase₀⟩
        obtain ⟨hqueued, hobserved⟩ := (hr n).keeps (r.lawful n) hy hphase₀ ⟨y', m, hy', hphase⟩
        rcases ih hbefore with hproceed | ⟨a, hsince, hheard⟩
        · exact Or.inl (hqueued _ nofun hproceed)
        · obtain ⟨j, hjn, hawaits⟩ := hsince
          refine Or.inr ⟨a, ⟨j, Nat.lt_succ_of_lt hjn, hawaits⟩, ?_⟩
          rcases hheard with (hproceed | ⟨p, hp⟩) | hk | hlost
          · exact Or.inl (Or.inl (hqueued _ nofun hproceed))
          · exact Or.inl (Or.inr ⟨p, hqueued _ nofun hp⟩)
          · rcases hobserved a hk with hk' | hwoken | ⟨hforgets, f, rfl⟩
            · exact Or.inr (Or.inl hk')
            · exact Or.inl hwoken
            · by_cases hk' : (r.moment (n + 1)).world.Observed k (.future f)
              · exact Or.inr (Or.inl hk')
              · by_cases hwoken : (r.moment (n + 1)).world.Woken k
                · exact Or.inl hwoken
                · exact Or.inr (Or.inr (.severed (Nat.lt_succ_self n) hk hk' hwoken hforgets))
          · exact Or.inr (Or.inr (hlost.mono (Nat.le_succ n)))
      · refine Or.inr ⟨a, ⟨n, Nat.lt_succ_self n, hawaits⟩, Or.inr ?_⟩
        exact hobserved.imp_right fun hmisses => .missed (Nat.lt_succ_self n) hmisses

/-- A fiber that is suspended, not on its way out and not masked, and that has been told that its scope is
closing, has a task in the queue that resumes it. -/
theorem Exact.warned (hr : r.Exact) {y : Fiber σ} {m : Machine σ}
    (hy : (r.moment n).world.fibers.get? k.fiber = some y) (hphase : y.phase = .suspended k.token m)
    (hexiting : m.exiting = false) (hinterruptible : y.interruptible = true)
    (hterm : y.terminating = true) :
    (r.moment n).world.Queued k .terminate ∨ (r.moment n).world.Queued k .proceed := by
  induction n generalizing y with
  | zero =>
      rw [r.start] at hy
      cases hy
  | succ n ih =>
      rcases (r.move n).onset (r.lawful n) (r.turned n) hy hphase with
        hproceed | ⟨y₀, hy₀, hrests⟩ | ⟨a, -, -, hends⟩
      · exact Or.inr hproceed
      · have hphase₀ : y₀.phase = .suspended k.token m := hrests.phase ▸ hphase
        have hhears : y₀.interruptible = true := by
          rw [Fiber.interruptible, ← hrests.masks]
          exact hinterruptible
        obtain ⟨hqueued, -⟩ := (hr n).keeps (r.lawful n) hy₀ hphase₀ ⟨y, m, hy, hphase⟩
        rcases hrests.told hterm with hbefore | hnow
        · exact (ih hy₀ hphase₀ hhears hbefore).imp (hqueued _ fun _ => ⟨hexiting, hhears⟩)
            (hqueued _ fun h => by cases h)
        · exact Or.inl hnow
      · exact Or.inl (hends hexiting hterm)

/-- A fiber that comes to wait for what is not there hears nothing of it. -/
theorem forsaken_of_misses (h : (r.moment n).Misses k a) :
    (r.moment (n + 1)).world.Expects (fun _ => False) k := by
  have hexpects := expects_next h.1
  obtain ⟨w, y, m, -, -, -, -, hmisses, hnext⟩ := awaits_next h.1
  have hnot : ¬ (r.moment (n + 1)).world.Has a := by
    rw [hnext]
    exact fun hhas => hmisses h (World.has_park.mp (World.Has.of_subscribe hhas))
  refine hexpects.forsaken (fun hk => hnot hk.has) ?_
  rintro (hproceed | ⟨p, hp⟩)
  · exact hexpects.proceed hproceed
  · obtain ⟨_, rfl, htells⟩ := hexpects.untold.queue p hp
    exact hnot htells.has

theorem Lost.given (h : r.Lost n k) : (r.moment n).world.Given k := by
  cases h with
  | severed hj hk => exact r.given (Nat.le_of_lt hj) ((r.attentive _).given hk)
  | missed hj hk => exact r.given hj (given_next hk.1)

/-- A fiber that has lost its wake-up and is suspended hears nothing any more but that it has to end. -/
theorem Exact.forsaken (hr : r.Exact) (hk : (r.moment n).world.Suspended k) (hlost : r.Lost n k) :
    (r.moment n).world.Expects (fun _ => False) k := by
  induction n with
  | zero =>
      cases hlost with
      | severed hj => cases hj
      | missed hj => cases hj
  | succ n ih =>
      -- lost before, it was suspended before; else it is lost in this move
      have hearlier : r.Lost n k → (r.moment (n + 1)).world.Expects (fun _ => False) k := by
        intro h
        have hbefore := r.suspended_since (Nat.le_succ n) h.given hk
        exact expects_succ hbefore hk (ih hbefore h)
      cases hlost with
      | @severed j f hj hobserved hunobserved hunwoken hforgets =>
          rcases Nat.lt_or_eq_of_le (Nat.le_of_lt_succ hj) with hlt | rfl
          · exact hearlier (.severed hlt hobserved hunobserved hunwoken hforgets)
          · have hbefore := r.suspended_since (Nat.le_succ j) ((r.attentive j).given hobserved) hk
            rcases hr.listens hbefore with hproceed | ⟨a, ⟨i, hij, hawaits⟩, -⟩
            · obtain ⟨y, m, hy, hphase⟩ := hbefore
              have hkept := ((hr j).keeps (r.lawful j) hy hphase hk).1 .proceed nofun hproceed
              exact absurd (Or.inl hkept) hunwoken
            · have hexpects := expects_of_awaits hij hawaits hbefore
              obtain rfl := hexpects.untold.eq_of_observed hobserved
              exact (expects_succ hbefore hk hexpects).forsaken hunobserved hunwoken
      | @missed j a hj hmisses =>
          rcases Nat.lt_or_eq_of_le (Nat.le_of_lt_succ hj) with hlt | rfl
          · exact hearlier (.missed hlt hmisses)
          · exact forsaken_of_misses hmisses

/-! ## Between two tasks -/

/-- What holds of every fiber between two tasks. It has a machine exactly if it has not started or is
suspended. Tokens go up, each is of one suspension, and a resumption under an old one changes nothing. A
suspended fiber has a task in the queue that lets it go on, or waits for what has not happened and
observes it, exactly if its wake-up is not lost. While it waits, a task in the queue tells it of what
it waits for, or that its scope is closing; if that is so, and it is not masked or on its way out, there
is a task that makes it leave its program. No program is dropped without an exit while the scope is open. -/
structure Wakeful (r : Run σ) (n : Nat) : Prop where
  saved : ∀ f y, (r.moment n).world.fibers.get? f = some y → y.phase ≠ .running ∧
    (y.phase.machine?.isSome = true ↔ (∃ m, y.phase = .notStarted m) ∨ ∃ t m, y.phase = .suspended t m)
  issued : ∀ k, (r.moment n).world.Suspended k → (r.moment n).world.Given k
  increasing : ∀ f t t' i j, i ≤ j → j ≤ n → (r.moment i).world.Suspended ⟨f, t⟩ →
    ¬ (r.moment j).world.Suspended ⟨f, t⟩ → (r.moment n).world.Suspended ⟨f, t'⟩ → t < t'
  stale : ∀ k, ¬ (r.moment n).world.Suspended k → ∀ t timers, (r.moment n).world.timers.Draws t timers →
    ∀ resume, t.task = .resume k.fiber k.token resume →
      World.begin { (r.moment n).world with timers } t.task = ⟨{ (r.moment n).world with timers }, none⟩
  wakes : ∀ k, (r.moment n).world.Suspended k → (¬ r.Lost n k ↔ (r.moment n).world.Woken k ∨
    ∃ j < n, ∃ a, (r.moment j).Awaits k a ∧ (r.moment n).world.Observed k a ∧
      (r.moment n).world.settledProgram? a = none)
  told : ∀ j < n, ∀ k a, (r.moment j).Awaits k a → (r.moment n).world.Suspended k →
    ∀ resume, (r.moment n).world.Queued k resume →
      (∃ p, resume = .program p ∧ (r.moment n).world.Tells a p) ∨
        resume = .terminate ∧ ∃ y, (r.moment n).world.fibers.get? k.fiber = some y ∧
          World.Sealed (r.moment n).world y.scope
  abandons : ∀ k y m, (r.moment n).world.fibers.get? k.fiber = some y → y.phase = .suspended k.token m →
    World.Sealed (r.moment n).world y.scope → y.interruptible = true → m.exiting = false →
      ∃ resume, (r.moment n).world.Queued k resume ∧ ∀ timers,
        (World.begin { (r.moment n).world with timers } (.resume k.fiber k.token resume)).Leaves k.fiber
          { y with phase := .running } m
  dropped : ∀ j f y m, (r.moment j).active = some (f, m) → (r.moment j).world.fibers.get? f = some y →
    (m.heed y).control = .leave none → World.Sealed (r.moment j).world y.scope

/-- A fiber whose scope is not open has a task in the queue that makes it leave its program, unless it is
masked or on its way out. -/
theorem Exact.leaves (hr : r.Exact) {y : Fiber σ} {m : Machine σ}
    (hy : (r.moment n).world.fibers.get? k.fiber = some y) (hphase : y.phase = .suspended k.token m)
    (hsealed : World.Sealed (r.moment n).world y.scope) (hinterruptible : y.interruptible = true)
    (hexiting : m.exiting = false) :
    ∃ resume, (r.moment n).world.Queued k resume ∧ ∀ timers,
      (World.begin { (r.moment n).world with timers } (.resume k.fiber k.token resume)).Leaves k.fiber
        { y with phase := .running } m := by
  have hterm := (r.lawful n).hooked.terminating hy hsealed
  have hbegins : ∀ timers resume, resume = .terminate ∨ resume = .proceed →
      (World.begin { (r.moment n).world with timers } (.resume k.fiber k.token resume)).Leaves k.fiber
        { y with phase := .running } m := by
    intro timers resume hresume
    have hmust : ({ y with phase := .running } : Fiber σ).mustLeave = true := by
      simp only [Fiber.mustLeave, hterm, Bool.true_and]
      exact hinterruptible
    have hset : ((r.moment n).world.fibers.set k.fiber { y with phase := .running }).get? k.fiber =
        some { y with phase := .running } := Store.get?_set_of_some hy
    rw [World.begin, World.awaken_suspended (w := { (r.moment n).world with timers }) hy hphase]
    rcases hresume with rfl | rfl
    · simp only [hexiting, hinterruptible, Bool.not_true, Bool.or_self, Bool.false_eq_true, if_false]
      exact ⟨rfl, hset, hexiting, hmust⟩
    · exact ⟨rfl, hset, hexiting, hmust⟩
  rcases hr.warned hy hphase hexiting hinterruptible hterm with hq | hq
  · exact ⟨_, hq, fun timers => hbegins timers _ (Or.inl rfl)⟩
  · exact ⟨_, hq, fun timers => hbegins timers _ (Or.inr rfl)⟩

/-- Between two tasks no fiber has lost its wake-up but for the two reasons there are, and none is resumed
twice. -/
theorem Exact.wakeful (hr : r.Exact) (hidle : (r.moment n).active = none) : r.Wakeful n where
  saved := by
    intro f y hy
    have hrun : y.phase ≠ .running := by
      intro hrun
      obtain ⟨m, hm⟩ := r.sole n f y hy hrun
      rw [hidle] at hm
      cases hm
    refine ⟨hrun, ?_⟩
    cases hphase : y.phase with
    | notStarted m => exact ⟨fun _ => Or.inl ⟨m, rfl⟩, fun _ => rfl⟩
    | suspended t m => exact ⟨fun _ => Or.inr ⟨t, m, rfl⟩, fun _ => rfl⟩
    | running => exact absurd hphase hrun
    | done e =>
        refine ⟨nofun, ?_⟩
        rintro (⟨m, hm⟩ | ⟨t, m, hm⟩)
        · cases hm
        · cases hm
  issued := fun _ hk => r.given_of_suspended hk
  increasing := fun _ _ _ _ _ hij hjn hi hj hn => r.token_lt hij hjn hi hj hn
  stale := by
    intro k hk t timers _ resume htask
    rw [htask]
    exact World.begin_stale (w := { (r.moment n).world with timers }) hk resume
  wakes := by
    intro k hk
    constructor
    · intro hlost
      rcases hr.listens hk with hproceed | ⟨a, ⟨j, hjn, hawaits⟩, hwoken | hobserved | h⟩
      · exact Or.inl (Or.inl hproceed)
      · exact Or.inl hwoken
      · exact Or.inr ⟨j, hjn, a, hawaits, hobserved, World.settledProgram?_of_observed hobserved⟩
      · exact absurd h hlost
    · intro hwakes hlost
      have hforsaken := hr.forsaken hk hlost
      rcases hwakes with (hproceed | ⟨p, hp⟩) | ⟨_, -, a, -, hobserved, -⟩
      · exact hforsaken.proceed hproceed
      · obtain ⟨_, h, -⟩ := hforsaken.untold.queue p hp
        exact h
      · exact hforsaken.untold.eq_of_observed hobserved
  told := by
    intro j hjn k a hawaits hk resume hq
    have hexpects := expects_of_awaits hjn hawaits hk
    cases resume with
    | proceed => exact absurd hq hexpects.proceed
    | program p =>
        obtain ⟨_, rfl, htells⟩ := hexpects.untold.queue p hq
        exact Or.inl ⟨p, rfl, htells⟩
    | terminate =>
        obtain ⟨y, hy, hterm⟩ := hexpects.terminate hq
        exact Or.inr ⟨rfl, y, hy, (r.noted n).told _ y hy hterm⟩
  abandons := fun _ _ _ hy hphase hsealed hinterruptible hexiting =>
    hr.leaves hy hphase hsealed hinterruptible hexiting
  dropped := fun _ _ _ _ hactive hy hled => r.sealed_of_led hactive hy hled

end Run

/-! ## A wake-up that is dropped under the number of another -/

/-- A child waits for a future. Its parent adds an observer to another future, drops the one that the child's
future has under the same number, resolves that future, and waits for the other. -/
def mistaken : Program Nat :=
  .access fun _ => .call .newFuture fun other => .call .newFuture fun awaited => .program
    ((Program.fork (.wait (.future awaited)) {}).andThen (Program.yieldNow.andThen
      (.defer (.watchFuture other (fun _ => .stop) fun key =>
        .call (.unwatchFuture awaited (key.getD 0)) fun _ =>
          .resolve awaited .unit fun _ => .program (.wait (.future other))))))

theorem licensed_mistaken : mistaken.Licensed .none :=
  .access fun _ => .call nofun fun _ => .call nofun fun _ => .program
    (.flatMap (.fork .wait) (.next (.flatMap .yieldNow (.next (.defer (.watchFuture fun _ =>
      .call (fun _ => trivial) fun _ => .resolve .succeed fun _ => .program .wait))))))

/-- The run of the two. -/
def mistakenRun : Run Nat := .inOrder .standard 0 mistaken licensed_mistaken

/-- The wake-up of the child. -/
def mistakenWake : Wake := ⟨⟨1⟩, 1⟩

theorem suspended_mistaken {n : Nat} (hn : n = 18 ∨ n = 22) :
    (mistakenRun.moment n).world.Suspended mistakenWake := by
  rcases hn with rfl | rfl
  · exact ⟨((mistakenRun.moment 18).world.fibers.get? ⟨1⟩).get rfl, _, rfl, rfl⟩
  · exact ⟨((mistakenRun.moment 22).world.fibers.get? ⟨1⟩).get rfl, _, rfl, rfl⟩

theorem awaits_mistaken : (mistakenRun.moment 17).Awaits mistakenWake (.future ⟨1⟩) :=
  ⟨((mistakenRun.moment 17).active.get rfl).2, ((mistakenRun.moment 17).world.fibers.get? ⟨1⟩).get rfl,
    _, _, none, rfl, rfl, rfl, rfl, rfl⟩

theorem unwoken_mistaken : ¬ (mistakenRun.moment 22).world.Woken mistakenWake := by
  have hempty : (mistakenRun.moment 22).world.timers.live = [] := rfl
  rintro (⟨t, ht, -⟩ | ⟨p, t, ht, -⟩)
  · rw [hempty] at ht
    cases ht
  · rw [hempty] at ht
    cases ht

/-- When it has come to wait, the child will be woken. When its parent is through, its wake-up is lost. -/
theorem mistaken_wakeful : (mistakenRun.moment 18).active = none ∧ (mistakenRun.moment 22).active = none ∧
    ¬ mistakenRun.Lost 18 mistakenWake ∧ mistakenRun.Lost 22 mistakenWake := by
  have hexact : mistakenRun.Exact := Run.exact_inOrder _ _ _ _
  have hobserved : (mistakenRun.moment 18).world.Observed mistakenWake (.future ⟨1⟩) :=
    ⟨((mistakenRun.moment 18).world.futures.get? ⟨1⟩).get rfl, rfl, (0, .wake mistakenWake),
      List.mem_singleton.mpr rfl, rfl⟩
  have hbefore := Run.Exact.wakeful (n := 18) hexact rfl
  have hafter := Run.Exact.wakeful (n := 22) hexact rfl
  refine ⟨rfl, rfl, (hbefore.wakes _ (suspended_mistaken (Or.inl rfl))).mpr
    (Or.inr ⟨17, by decide, _, awaits_mistaken, hobserved, rfl⟩), by_contra fun hkept => ?_⟩
  rcases (hafter.wakes _ (suspended_mistaken (Or.inr rfl))).mp hkept with hwoken | ⟨j, -, a, -, hk, hnone⟩
  · exact unwoken_mistaken hwoken
  · have hexpects := Run.expects_of_awaits (n := 22) (by decide) awaits_mistaken
      (suspended_mistaken (Or.inr rfl))
    obtain rfl := hexpects.untold.eq_of_observed hk
    cases hnone

/-- What the child waits for has happened, and it stays suspended for ever, with no task to resume it. -/
theorem mistaken_stranded : (mistakenRun.moment 17).Awaits mistakenWake (.future ⟨1⟩) ∧
    ∀ n, 22 ≤ n → (mistakenRun.moment n).active = none ∧
      (mistakenRun.moment n).world.Suspended mistakenWake ∧
      (mistakenRun.moment n).world.settledProgram? (.future ⟨1⟩) ≠ none ∧
      ¬ (mistakenRun.moment n).world.Woken mistakenWake := by
  refine ⟨awaits_mistaken, fun n hn => ?_⟩
  have hstays : mistakenRun.moment n = mistakenRun.moment 22 := Run.inOrder_stays rfl rfl hn
  rw [hstays]
  exact ⟨rfl, suspended_mistaken (Or.inr rfl), nofun, unwoken_mistaken⟩

end Fibers
