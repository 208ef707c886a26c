import Fibers.Proofs.Traces.Regions
import Fibers.Proofs.Run.Stopping

set_option autoImplicit false

/-! # Traces under a bound

The logical trace of a fiber (`Run.Logical`) knows no bound: it is that of its parent at the fork, then the
fork, then the labels of the regions that the fiber is inside. What a fiber keeps of it is cut at every fork,
and what it shows is cut again. Since cutting twice is cutting once, a fiber shows the newest frames of its
logical trace, and so does the cause of a panic that is caught in its step (`Run.traces_bounded`).
-/

namespace Fibers

variable {σ : Type} {r : Run σ} {f : Key .fiber} {j k : Nat}

/-! ## The trace without a bound -/

/-- In the move from the moment `j`, in its turn, the fiber `g` forks `f`. -/
structure Run.Forks (r : Run σ) (j : Nat) (g f : Key .fiber) : Prop where
  turn : ∃ m, (r.moment j).active = some (g, m)
  new : (r.moment j).world.fibers.get? f = none
  made : ∃ y, (r.moment (j + 1)).world.fibers.get? f = some y

/-- The logical trace of a fiber at a moment. -/
inductive Run.Logical (r : Run σ) : Key .fiber → Nat → List Frame → Prop
  | root {f : Key .fiber} {j k : Nat} {labels : List Frame} :
      r.Starts j f → j < k → r.Labels f k labels → Logical r f k labels
  | fork {f g : Key .fiber} {j k : Nat} {y : Fiber σ} {frames labels : List Frame} :
      r.Forks j g f → j < k → (r.moment j).world.fibers.get? g = some y → Logical r g j frames →
      r.Labels f k labels → Logical r f k (frames ++ .fork y.context.id :: labels)

/-- A root fiber is new when it is started. -/
theorem Run.Starts.new (h : r.Starts j f) : (r.moment j).active = none ∧
    (r.moment j).world.roster.cards.get? f = none ∧
    ∃ c, (r.moment (j + 1)).world.roster.cards.get? f = some c := by
  obtain ⟨c, hc, -⟩ := h.card
  obtain ⟨w, p, hquiet, -, rfl⟩ := h
  obtain ⟨d, -, -, -, -, -, -, -, hkey, -⟩ := World.roster_runFiber w p
  rw [hquiet]
  exact ⟨rfl, hkey ▸ Store.get?_next _ _, c, hc⟩

theorem Run.Forks.cards {g : Key .fiber} (h : r.Forks j g f) :
    (r.moment j).world.roster.cards.get? f = none ∧
      ∃ c, (r.moment (j + 1)).world.roster.cards.get? f = some c := by
  obtain ⟨y, hy⟩ := h.made
  exact ⟨by rw [World.get?_cards, h.new, Option.map_none], y.card, World.card_of_get hy⟩

/-- A fiber is made once. -/
theorem Run.made_once {i : Nat} {c d : Card} (hi : (r.moment i).world.roster.cards.get? f = none)
    (hi' : (r.moment (i + 1)).world.roster.cards.get? f = some c)
    (hj : (r.moment j).world.roster.cards.get? f = none)
    (hj' : (r.moment (j + 1)).world.roster.cards.get? f = some d) : i = j := by
  have hbefore : ∀ {a b : Nat} {e : Card}, (r.moment (a + 1)).world.roster.cards.get? f = some e →
      (r.moment b).world.roster.cards.get? f = none → b ≤ a := by
    intro a b e he hb
    by_contra hlt
    obtain ⟨e', he', -⟩ := Run.card_of_le (Nat.succ_le_of_lt (Nat.not_le.mp hlt)) he
    rw [hb] at he'
    cases he'
  exact Nat.le_antisymm (hbefore hj' hi) (hbefore hi' hj)

/-- There is at most one logical trace. -/
theorem Run.Logical.unique {frames frames' : List Frame} (h : r.Logical f k frames)
    (h' : r.Logical f k frames') : frames = frames' := by
  induction h generalizing frames' with
  | root hstarts _ hlabels =>
      obtain ⟨hquiet, hnew, c, hc⟩ := hstarts.new
      cases h' with
      | root _ _ hlabels' => exact hlabels.unique hlabels'
      | fork hforks _ _ _ _ =>
          obtain ⟨hnew', d, hd⟩ := hforks.cards
          obtain rfl := Run.made_once hnew hc hnew' hd
          obtain ⟨m, hm⟩ := hforks.turn
          rw [hquiet] at hm
          cases hm
  | fork hforks _ hy _ hlabels ih =>
      obtain ⟨hnew, c, hc⟩ := hforks.cards
      obtain ⟨m, hm⟩ := hforks.turn
      cases h' with
      | root hstarts _ _ =>
          obtain ⟨hquiet, hnew', d, hd⟩ := hstarts.new
          obtain rfl := Run.made_once hnew hc hnew' hd
          rw [hquiet] at hm
          cases hm
      | fork hforks' _ hy' hparent' hlabels' =>
          obtain ⟨hnew', d, hd⟩ := hforks'.cards
          obtain rfl := Run.made_once hnew hc hnew' hd
          obtain ⟨m', hm'⟩ := hforks'.turn
          obtain ⟨⟩ : some (_, m) = some (_, m') := hm.symm.trans hm'
          obtain rfl := Option.some.inj (hy.symm.trans hy')
          rw [ih hparent', hlabels.unique hlabels']

/-! ## What is kept of it -/

/-- Every fiber has a logical trace, and the frames that it keeps have the same newest ones. -/
theorem Run.logical (r : Run σ) (k : Nat) {f : Key .fiber} {y : Fiber σ}
    (hy : (r.moment k).world.fibers.get? f = some y) : ∃ frames, r.Logical f k frames ∧
      newest r.config.maxTrace y.frames = newest r.config.maxTrace frames := by
  induction k using Nat.strongRecOn generalizing f y with
  | ind k ih =>
      have hlabels := r.labels hy
      obtain ⟨j, d, hjk, hnone, hd, hborn, -, hinherited⟩ := r.born (World.card_of_get hy)
      have hinherited : y.inherited = d.inherited := hinherited
      cases hborn with
      | @root p hquiet hnext hkey _ _ hempty =>
          refine ⟨_, .root ⟨(r.moment j).world, p, ?_, hnext, hkey⟩ hjk hlabels, ?_⟩
          · rw [← hquiet]
          · rw [Fiber.frames, hinherited, hempty, List.nil_append]
      | @fork g m z hactive hz hbegets =>
          obtain ⟨frames, hlogical, hframes⟩ := ih j hjk hz
          have hforks : r.Forks j g f := by
            refine ⟨⟨m, hactive⟩, ?_, (World.get_of_card hd).imp fun _ h => h.1⟩
            rw [World.get?_cards] at hnone
            exact Option.map_eq_none_iff.mp hnone
          have hmax : z.context.limits.maxTrace = r.config.maxTrace :=
            congrArg Limits.maxTrace ((r.limits j).2 g _ (World.card_of_get hz))
          refine ⟨_, .fork hforks hjk hz hlogical hlabels, ?_⟩
          -- cutting at the fork does not show once it is cut again
          calc newest r.config.maxTrace y.frames
              = newest r.config.maxTrace (newest z.context.limits.maxTrace z.frames ++
                  .fork z.context.id :: y.labels.reverse) := by
                rw [Fiber.frames, hinherited, hbegets.inherited, List.append_assoc]
                rfl
            _ = newest r.config.maxTrace (newest r.config.maxTrace frames ++
                  .fork z.context.id :: y.labels.reverse) := by rw [hmax, hframes]
            _ = newest r.config.maxTrace (frames ++ .fork z.context.id :: y.labels.reverse) :=
                Trace.newest_append_newest _ _ _

/-- What a fiber shows of its trace. -/
theorem Run.trace_eq {y : Fiber σ} {frames : List Frame} (hy : (r.moment k).world.fibers.get? f = some y)
    (h : r.Logical f k frames) : y.trace = ⟨newest r.config.maxTrace frames⟩ := by
  obtain ⟨frames', hlogical, hframes⟩ := r.logical k hy
  have hmax : y.context.limits.maxTrace = r.config.maxTrace :=
    congrArg Limits.maxTrace ((r.limits k).2 f _ (World.card_of_get hy))
  rw [Fiber.trace, Trace.ofFrames_eq, hmax, hframes, hlogical.unique h]

/-! ## Panics -/

/-- An empty trace is not attached. -/
theorem Cause.withTrace_die {ε : Type} (d : Defect) (frames : List Frame) :
    (Cause.die d : Cause ε).withTrace ⟨frames⟩ =
      if frames = [] then .die d else .traced (.die d) ⟨frames⟩ := by
  cases frames <;> rfl

namespace World

/-- A step of the fiber `f` with the machine `m` runs code that panics, and leaves the world `w'`. -/
inductive Panics (w : World σ) (f : Key .fiber) (y : Fiber σ) (m : Machine σ) (w' : World σ) (d : Defect) : Prop
  | lazy {thunk : Act σ .exit} : m.control = .instruct (.lazy thunk) → w.run thunk = (w', .error d) →
      Panics w f y m w' d
  | defer {make : Act σ .program} : m.control = .instruct (.defer make) → w.run make = (w', .error d) →
      Panics w f y m w' d
  | access {g : Services → Act σ .program} : m.control = .instruct (.access g) →
      w.run (g y.services.top) = (w', .error d) → Panics w f y m w' d
  | async {reg : Key .future → Act σ .registration} : m.control = .instruct (.async reg) →
      w.newFuture.1.run (reg w.newFuture.2) = (w', .error d) → Panics w f y m w' d
  | fork {p : Program σ} {params : ForkParams} : m.control = .instruct (.fork p params) →
      w.forkChild f p params = (w', .error d) → Panics w f y m w' d
  | raceAll {p : Program σ} {ps : List (Program σ)} : m.control = .instruct (.raceAll (p :: ps)) →
      w.contest f (p :: ps) .racer .raceDecided = (w', .error d) → Panics w f y m w' d
  | zipAll {p : Program σ} {ps : List (Program σ)} : m.control = .instruct (.zipAll (p :: ps)) →
      w.contest f (p :: ps) .member .zipDecided = (w', .error d) → Panics w f y m w' d
  | duty {duty : Duty σ} : m.control = .instruct (.duty duty) → w.attend duty = (w', .error d) →
      Panics w f y m w' d
  | proceed {v : Value} {x : Waiting σ} {next : Cont σ} {rest : List (Waiting σ)} {w₁ : World σ} :
      m.control = .value v → descend f false m.stack w = (w₁, x :: rest) →
      (x = .map next ∨ ∃ h, x = .fold h next) → w₁.proceedWith next v = (w', .error d) → Panics w f y m w' d
  | recover {c : AnyCause} {h : Handler σ} {next : Cont σ} {rest : List (Waiting σ)} {w₁ : World σ} :
      m.control = .failure c → descend f true m.stack w = (w₁, .fold h next :: rest) →
      w₁.recoverWith h c = (w', .error d) → Panics w f y m w' d
  | finalize {e : AnyExit} {h : Option Handle} {fin : Finalizer σ} {rest : List (Waiting σ)} {w₁ w₂ : World σ} :
      m.control = .ofExit e → descend f e.isFailure m.stack w = (w₁, .finalizer h fin :: rest) →
      w₁.claimFinalizer h = (w₂, true) →
      (w₂.modifyFiber f fun fiber => { fiber with masks := fiber.masks.push false }).finalizeWith fin e =
        (w', .error d) → Panics w f y m w' d

/-- A panic is caught. -/
theorem Panics.advance {w w' : World σ} {y : Fiber σ} {m : Machine σ} {d : Defect}
    (hworks : Moment.Works ⟨w, some (f, m)⟩ f y m) (h : (w.count f).Panics f y m w' d) :
    ∃ m' : Machine σ, w.advance f m =
      ⟨w', some (f, { m' with control := .failure ((Cause.die d).withTrace (w'.traceOf f)) })⟩ := by
  have hinstruct : ∀ {p : Program σ}, m.control = .instruct p →
      (w.count f).instruct f y m p = enter f m (w', .error d) → ∃ m' : Machine σ, w.advance f m =
        ⟨w', some (f, { m' with control := .failure ((Cause.die d).withTrace (w'.traceOf f)) })⟩ :=
    fun hcontrol hstep => ⟨m, by rw [advance_instruct hworks hcontrol, hstep]; rfl⟩
  have hunwind : ∀ (m' : Machine σ) {e : AnyExit} {w₁ : World σ} {left : List (Waiting σ)}, m.control = .ofExit e →
      descend f e.isFailure m.stack (w.count f) = (w₁, left) →
      unwind f m.exiting e left w₁ = enter f m' (w', .error d) → ∃ m' : Machine σ, w.advance f m =
        ⟨w', some (f, { m' with control := .failure ((Cause.die d).withTrace (w'.traceOf f)) })⟩ :=
    fun m' _ _ _ hcontrol hdescend hstep =>
      ⟨m', by rw [advance_unwind hworks hcontrol, unwind_descend, hdescend, hstep]; rfl⟩
  cases h with
  | lazy hcontrol hrun => exact hinstruct hcontrol (by simp only [instruct, hrun])
  | defer hcontrol hrun => exact hinstruct hcontrol (congrArg (enter f m) hrun)
  | access hcontrol hrun => exact hinstruct hcontrol (congrArg (enter f m) hrun)
  | async hcontrol hrun => exact hinstruct hcontrol (by simp only [instruct, hrun])
  | fork hcontrol hfork => exact hinstruct hcontrol (by simp only [instruct, hfork])
  | raceAll hcontrol hcontest => exact hinstruct hcontrol (congrArg (enter f m) hcontest)
  | zipAll hcontrol hcontest => exact hinstruct hcontrol (congrArg (enter f m) hcontest)
  | duty hcontrol hattend => exact hinstruct hcontrol (congrArg (enter f m) hattend)
  | @proceed v x next rest w₁ hcontrol hdescend hx hproceed =>
      refine hunwind ⟨.value v, rest, m.exiting⟩ (e := .success v) hcontrol hdescend ?_
      rcases hx with rfl | ⟨h, rfl⟩
      · simp only [unwind, unwindValue, hproceed]
      · simp only [unwind, unwindValue, hproceed]
  | @recover c h next rest w₁ hcontrol hdescend hrecover =>
      refine hunwind ⟨.failure c, rest, m.exiting⟩ (e := .failure c) hcontrol hdescend ?_
      simp only [unwind, unwindFailure, hrecover]
  | @finalize e h fin rest w₁ w₂ hcontrol hdescend hclaim hfinalize =>
      refine hunwind ⟨.ofExit e, .restore .interruptible :: .resumeWith e :: rest, m.exiting⟩ hcontrol hdescend ?_
      cases e with
      | success v => simp only [unwind, unwindValue, hclaim, enterFinalizer, hfinalize, Control.ofExit]
      | failure c => simp only [unwind, unwindFailure, hclaim, enterFinalizer, hfinalize, Control.ofExit]

end World

/-! ## What is shown of it -/

/-- A fiber shows the newest of the frames: when it is looked at, when it asks for its trace itself, and in the
cause of a panic that is caught in the step before, which has no trace if there are none. It keeps no more of
its parent's than are shown, and the fork. -/
structure Run.Traced (r : Run σ) (f : Key .fiber) (k : Nat) (frames : List Frame) : Prop where
  kept : ∀ y, (r.moment k).world.fibers.get? f = some y → y.inherited.length ≤ r.config.maxTrace + 1
  shown : ∀ y, (r.moment k).world.fibers.get? f = some y → y.trace = ⟨newest r.config.maxTrace frames⟩
  viewed : ((r.moment k).world.answer (.fiber f)).trace = ⟨newest r.config.maxTrace frames⟩
  asked : ∀ y m, (r.moment k).Works f y m → m.control = .instruct .fiberTrace →
    (r.moment (k + 1)).active = some (f, { m with control := .value (.trace ⟨newest r.config.maxTrace frames⟩) })
  caught : ∀ j y m w d, j + 1 = k → (r.moment j).Works f y m → ((r.moment j).world.count f).Panics f y m w d →
    ∃ m', (r.moment k).active = some (f, m') ∧ m'.control = .failure
      (if newest r.config.maxTrace frames = [] then .die d else .traced (.die d) ⟨newest r.config.maxTrace frames⟩)

theorem length_newest_le {α : Type} (max : Nat) (xs : List α) : (newest max xs).length ≤ max := by
  rw [newest, List.length_drop]
  omega

/-- A fiber keeps what is shown of its parent's trace, and the fork. -/
theorem Run.length_inherited {y : Fiber σ} (hy : (r.moment k).world.fibers.get? f = some y) :
    y.inherited.length ≤ r.config.maxTrace + 1 := by
  obtain ⟨j, d, -, -, -, hborn, -, hinherited⟩ := r.born (World.card_of_get hy)
  have hinherited : y.inherited = d.inherited := hinherited
  rw [hinherited]
  cases hborn with
  | root _ _ _ _ _ hempty =>
      rw [hempty]
      exact Nat.zero_le _
  | @fork g m z _ hz hbegets =>
      have hmax : z.context.limits.maxTrace = r.config.maxTrace :=
        congrArg Limits.maxTrace ((r.limits j).2 g _ (World.card_of_get hz))
      have hlimits : z.card.context.limits.maxTrace = r.config.maxTrace := hmax
      rw [hbegets.inherited, hlimits, List.length_append, List.length_singleton]
      exact Nat.succ_le_succ (length_newest_le _ _)

theorem Run.Logical.traced {frames : List Frame} {y : Fiber σ}
    (hy : (r.moment k).world.fibers.get? f = some y) (h : r.Logical f k frames) : r.Traced f k frames where
  kept := fun _ hy => Run.length_inherited hy
  shown := fun _ hy => Run.trace_eq hy h
  viewed := by
    simp only [World.answer, hy, Option.map_some, Option.getD_some, Fiber.view]
    exact Run.trace_eq hy h
  asked := by
    intro z m hworks hcontrol
    rw [Run.advance_of_turn hworks.turn, World.advance_instruct hworks.here hcontrol, ← Run.trace_eq hworks.fiber h]
    rfl
  caught := by
    rintro j z m w d rfl hworks hpanics
    obtain ⟨m', hm'⟩ := hpanics.advance hworks.here
    rw [← Run.advance_of_turn hworks.turn] at hm'
    refine ⟨_, by rw [hm'], ?_⟩
    rw [hm'] at hy
    have htrace : w.traceOf f = ⟨newest r.config.maxTrace frames⟩ := by
      rw [World.traceOf, hy, Option.map_some, Option.getD_some]
      exact Run.trace_eq (hm' ▸ hy) h
    exact congrArg Control.failure (by rw [htrace, Cause.withTrace_die])

/-- At every moment of a run every fiber has one logical trace, and what it shows are the newest frames of
that, as many as are kept at most. -/
theorem Run.traces_bounded (r : Run σ) (k : Nat) (f : Key .fiber)
    (hf : ((r.moment k).world.fibers.get? f).isSome = true) :
    ∃ frames, (∀ frames', r.Logical f k frames' ↔ frames' = frames) ∧ r.Traced f k frames := by
  obtain ⟨y, hy⟩ := Option.isSome_iff_exists.mp hf
  obtain ⟨frames, hlogical, -⟩ := r.logical k hy
  exact ⟨frames, fun frames' => ⟨fun h => h.unique hlogical, fun h => h ▸ hlogical⟩, hlogical.traced hy⟩

/-- A program that panics in a labelled region. -/
def faulty : Program Nat := .addFrame (.defer (.panic "boom")) (.label "a")

theorem licensed_faulty : faulty.Licensed .none := .addFrame (.defer .panic)

/-- Under a bound of one frame the label is what the panic is caught with. -/
theorem faulty_traced :
    let r : Run Nat := .inOrder { Config.standard with clock := .virtual, maxTrace := 1 } 0 faulty licensed_faulty
    ∃ frames, (∀ frames', r.Logical ⟨0⟩ 5 frames' ↔ frames' = frames) ∧ r.Traced ⟨0⟩ 5 frames ∧
      newest 1 frames = [.label "a"] ∧
      ∃ m, (r.moment 5).active = some (⟨0⟩, m) ∧
        m.control = .failure (.traced (.die ⟨"boom"⟩) ⟨[.label "a"]⟩) := by
  intro r
  obtain ⟨m, hm, hcontrol⟩ : ∃ m, (r.moment 5).active = some (⟨0⟩, m) ∧
      m.control = .failure (.traced (.die ⟨"boom"⟩) ⟨[.label "a"]⟩) := ⟨_, rfl, rfl⟩
  obtain ⟨y, hy, hlabels⟩ : ∃ y, (r.moment 5).world.fibers.get? ⟨0⟩ = some y ∧ y.trace = ⟨[.label "a"]⟩ :=
    ⟨_, rfl, rfl⟩
  obtain ⟨frames, honly, htraced⟩ := Run.traces_bounded r 5 ⟨0⟩ (by rw [hy]; rfl)
  exact ⟨frames, honly, htraced, congrArg Trace.frames ((htraced.shown y hy).symm.trans hlabels), m, hm, hcontrol⟩

end Fibers
